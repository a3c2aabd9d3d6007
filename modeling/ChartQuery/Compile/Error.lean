import ChartQuery.Literal

namespace ChartQuery

/-- What is wrong with a filter. -/
inductive FilterFault where
  | noRule
  | notANumber (value : Literal)
  | notADate (value : Literal)
  deriving DecidableEq, Repr

def FilterFault.message : FilterFault → String
  | noRule => "filter has no rule"
  | notANumber value => "range endpoint " ++ value.describe ++ " is not a number"
  | notADate value => "temporal endpoint " ++ value.describe ++ " is not a date"

/-- Why a view cannot be compiled. -/
inductive CompileError where
  | badFilter (fid : String) (fault : FilterFault)
  | unknownField (fid referencedBy : String)
  /-- Computed fields that read each other, the first one repeated at the end. -/
  | circle (keys : List String)
  deriving DecidableEq, Repr

def CompileError.message : CompileError → String
  | badFilter fid fault => "Invalid filter rule on field '" ++ fid ++ "': " ++ fault.message
  | unknownField fid referencedBy =>
    "Field '" ++ referencedBy ++ "' references unknown field '" ++ fid ++ "'"
  | circle keys => "Circular reference between computed fields: " ++ " -> ".intercalate keys

end ChartQuery
