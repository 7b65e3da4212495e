import ZigCst.Vocabulary

/-!
# Faults

The causes for which a parser reports an error, and the wording of each.
-/

namespace ZigCst

/-- What a list in brackets consists of. -/
inductive Item where
  | value
  | initializer
  | argument
  | forInput
  | switchProng
  | errorName
  | parameter
deriving DecidableEq, Repr

/-- The item with its article. -/
def Item.phrase : Item → Text
  | .value => "a value".toList
  | .initializer => "an initializer".toList
  | .argument => "an argument".toList
  | .forInput => "a for input".toList
  | .switchProng => "a switch prong".toList
  | .errorName => "an error name".toList
  | .parameter => "a parameter".toList

/-- The cause of an error. -/
inductive Fault (K : Type) where
  /-- One kind of token was required and another was there. -/
  | expected (wanted found : K)
  | unexpected (found : K)
  | unexpectedCharacter (text : Text)
  | nestingTooDeep
  /-- A comma stands where an item should. -/
  | strayComma (item : Item)
  | expectedValue
  | expectedEndOfFile
  | expectedNumber
  | expectedEntryComma
  | expectedIdentifier
  | expectedExpression (found : K)
  | expectedBlock (found : K)
  | expectedStatement
  | expectedDeclaration
  | unmatchedBrace
  | expectedDeclarationKeyword
  | expectedParameters
  | expectedReturnType
  | expectedFieldComma
  | expectedContainerKeyword
  | expectedContainerBody
  | expectedBuiltinArguments
  | expectedLoop
  | expectedCapture
  | expectedAssemblyParen
  | unclosedAssembly
  | chainedComparison
deriving DecidableEq, Repr

/-- The wording of a fault. -/
def Fault.message {K : Type} [DecidableEq K] [Vocabulary K] : Fault K → Text
  | .expected wanted found =>
      "expected ".toList ++ Vocabulary.describe wanted ++ ", found ".toList ++
        Vocabulary.describe found
  | .unexpected found => "unexpected ".toList ++ Vocabulary.describe found
  | .unexpectedCharacter text => "unexpected character `".toList ++ text ++ ['`']
  | .nestingTooDeep => "nesting too deep".toList
  | .strayComma item => "expected ".toList ++ item.phrase ++ ", found `,`".toList
  | .expectedValue => "expected a value".toList
  | .expectedEndOfFile => "expected end of file after the value".toList
  | .expectedNumber => "expected a number after `-`".toList
  | .expectedEntryComma => "expected `,` between entries".toList
  | .expectedIdentifier => "expected identifier".toList
  | .expectedExpression found =>
      "expected an expression, found ".toList ++ Vocabulary.describe found
  | .expectedBlock found => "expected a block, found ".toList ++ Vocabulary.describe found
  | .expectedStatement => "expected a statement".toList
  | .expectedDeclaration => "expected a declaration".toList
  | .unmatchedBrace => "unmatched `\x7d`".toList
  | .expectedDeclarationKeyword => "expected `fn`, `const` or `var`".toList
  | .expectedParameters => "expected function parameters".toList
  | .expectedReturnType => "expected a return type".toList
  | .expectedFieldComma => "expected `,` after a field".toList
  | .expectedContainerKeyword => "expected `struct`, `enum`, `union` or `opaque`".toList
  | .expectedContainerBody => "expected a container body".toList
  | .expectedBuiltinArguments => "expected builtin arguments".toList
  | .expectedLoop => "expected `while` or `for`".toList
  | .expectedCapture => "expected a capture after the for inputs".toList
  | .expectedAssemblyParen => "expected `(` after `asm`".toList
  | .unclosedAssembly => "unclosed `(` in inline assembly".toList
  | .chainedComparison => "comparison operators cannot be chained".toList

end ZigCst
