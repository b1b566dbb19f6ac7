import Requirements.Specifier.Error

/-!
# Terms as text

A version token is what may follow an operator in any grammar, and a term in
text is a version token after the sign of an operator. Without a sign only
versions of equal rank pass.
-/

namespace Requirements

/-- The characters of a version token after its first one. -/
def isVersionChar (c : Char) : Bool :=
  c.isAlphanum || c == '.' || c == '+' || c == '_' || c == '-'

/-- A version token is a letter or digit and further version characters. -/
def isVersionToken : List Char → Bool
  | [] => false
  | c :: cs => c.isAlphanum && cs.all isVersionChar

def versionToken (cs : List Char) : Except SpecifierFault Version :=
  if isVersionToken cs then .ok (String.ofList cs)
  else .error (.unparsableVersion (String.ofList cs))

namespace Term

/-- The operator of the sign in front of a version. -/
def operator (cs : List Char) : Option Mark → Except SpecifierFault Operator
  | none => .ok .equal
  | some mark =>
      match Operator.ofSymbol? mark.symbol with
      | some op => .ok op
      | none => .error (.invalidOperator (String.ofList cs))

def read (cs : List Char) : Except SpecifierFault Term :=
  match Mark.split? AlternativesDialect.isOperand cs Mark.ofTerms with
  | none => .error .emptyTerm
  | some (mark, operand) => do
      let op ← operator cs mark
      return ⟨op, ← versionToken operand⟩

end Term

end Requirements
