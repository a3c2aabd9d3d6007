import ChartQuery.Pivot.HeaderValue

namespace ChartQuery

/-- Result columns by name. -/
abbrev Row := List (String × Literal)

namespace Row

def get? (r : Row) (column : String) : Option Literal := r.lookup column

/-- The value of a row in a dimension; a missing column counts as null. -/
def header (r : Row) (fid : String) : HeaderValue := ((r.get? fid).map .ofLiteral).getD .null

/-- The values of a row along several dimensions. -/
def headers (r : Row) (fids : List String) : List HeaderValue := fids.map r.header

end Row

end ChartQuery
