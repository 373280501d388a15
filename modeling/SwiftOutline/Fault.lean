/-!
# SwiftOutline.Fault

What can be wrong with a source text, and how it is said.

* `Fault` — one constructor per cause;
* `Fault.message` — the wording.
-/

namespace SwiftOutline

/-- What the grammar misses or refuses at some place. -/
inductive Fault where
  | unexpectedCloser
  | noDeclaration
  | noBody
  | unclosedBody
  | unclosedBlock
  | noAttributeName
  | unclosedAttributeArguments
  | noName
  | noNameOrOperator
  | unclosedGenericParameters
  | noRequirementRelation
  | noType
  | unclosedGenericArguments
  | unclosedCollectionType
  | unclosedTupleType
  | noFunctionTypeArrow
  | noParameters
  | unclosedParameters
  | noParameterLabel
  | noParameterType
  | noVariableName
  | noAccessor
  | unclosedAccessors
  | noAccessorParameterName
  | unclosedAccessorParameter
  | noExpression
  | noCondition
  | unclosedConditionalBlock
  | noPrecedenceGroupName
  | noPrecedenceGroupAttribute
  | noPrecedenceGroupValue
  | unclosedPrecedenceGroup
  | noAliasedType
  | unclosedAssociatedValues
  | noModuleName
  deriving DecidableEq, Repr, Inhabited

namespace Fault

/-- The wording of a fault. -/
def message : Fault → String
  | unexpectedCloser => "unexpected closing bracket"
  | noDeclaration => "expected a declaration"
  | noBody => "expected `\x7b`"
  | unclosedBody => "expected `\x7d` to close the body"
  | unclosedBlock => "expected `\x7d` to close the block"
  | noAttributeName => "expected attribute name"
  | unclosedAttributeArguments => "expected `)` to close attribute arguments"
  | noName => "expected a name"
  | noNameOrOperator => "expected a name or operator"
  | unclosedGenericParameters => "expected `>` to close generic parameters"
  | noRequirementRelation => "expected `:` or `==` in generic requirement"
  | noType => "expected a type"
  | unclosedGenericArguments => "expected `>` to close generic arguments"
  | unclosedCollectionType => "expected `]` to close collection type"
  | unclosedTupleType => "expected `)` to close tuple type"
  | noFunctionTypeArrow => "expected `->` in function type"
  | noParameters => "expected `(` to open parameters"
  | unclosedParameters => "expected `)` to close parameters"
  | noParameterLabel => "expected a parameter name"
  | noParameterType => "expected `:` and a parameter type"
  | noVariableName => "expected a variable name"
  | noAccessor => "expected an accessor"
  | unclosedAccessors => "expected `\x7d` to close accessors"
  | noAccessorParameterName => "expected parameter name"
  | unclosedAccessorParameter => "expected `)`"
  | noExpression => "expected an expression"
  | noCondition => "expected a condition"
  | unclosedConditionalBlock => "expected `#endif`"
  | noPrecedenceGroupName => "expected a precedence group name"
  | noPrecedenceGroupAttribute =>
    "expected `higherThan`, `lowerThan`, `associativity` or `assignment`"
  | noPrecedenceGroupValue => "expected a value"
  | unclosedPrecedenceGroup => "expected `\x7d`"
  | noAliasedType => "expected `=` and the aliased type"
  | unclosedAssociatedValues => "expected `)` to close associated values"
  | noModuleName => "expected a module name"

end Fault

end SwiftOutline
