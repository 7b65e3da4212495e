import ZigCst.Text.Blank
import ZigCst.Tree.Select
import ZigCst.Tree.Walk
import ZigCst.Zig.Kind

/-!
# Reading Zig trees

What the nodes of a source file mean: the names, types and values of
declarations, the parts of expressions, the contents of literals and the text
of documentation comments.
-/

namespace ZigCst
namespace Zig

/-- The name of the construct that a node of a kind stands for. -/
def construct? : Kind → Option String
  | .sourceFile => some "SourceFile"
  | .testDecl => some "TestDecl"
  | .comptimeDecl => some "ComptimeDecl"
  | .usingnamespaceDecl => some "UsingnamespaceDecl"
  | .fnDecl => some "FnDecl"
  | .varDecl => some "VarDecl"
  | .containerField => some "ContainerField"
  | .paramList => some "ParamList"
  | .param => some "Param"
  | .alignClause => some "AlignClause"
  | .addrspaceClause => some "AddrspaceClause"
  | .linksectionClause => some "LinksectionClause"
  | .callconvClause => some "CallconvClause"
  | .block => some "Block"
  | .label => some "Label"
  | .exprStmt => some "ExprStmt"
  | .assignExpr => some "AssignExpr"
  | .deferStmt => some "DeferStmt"
  | .suspendStmt => some "SuspendStmt"
  | .comptimeExpr => some "ComptimeExpr"
  | .nosuspendExpr => some "NosuspendExpr"
  | .ifExpr => some "IfExpr"
  | .elseBranch => some "ElseBranch"
  | .whileExpr => some "WhileExpr"
  | .whileContinue => some "WhileContinue"
  | .forExpr => some "ForExpr"
  | .forInput => some "ForInput"
  | .switchExpr => some "SwitchExpr"
  | .switchProng => some "SwitchProng"
  | .switchCase => some "SwitchCase"
  | .payload => some "Payload"
  | .breakExpr => some "BreakExpr"
  | .continueExpr => some "ContinueExpr"
  | .returnExpr => some "ReturnExpr"
  | .resumeExpr => some "ResumeExpr"
  | .binaryExpr => some "BinaryExpr"
  | .prefixExpr => some "PrefixExpr"
  | .errorUnionExpr => some "ErrorUnionExpr"
  | .parenExpr => some "ParenExpr"
  | .callExpr => some "CallExpr"
  | .argList => some "ArgList"
  | .fieldExpr => some "FieldExpr"
  | .derefExpr => some "DerefExpr"
  | .unwrapExpr => some "UnwrapExpr"
  | .indexExpr => some "IndexExpr"
  | .sliceExpr => some "SliceExpr"
  | .initExpr => some "InitExpr"
  | .initList => some "InitList"
  | .fieldInit => some "FieldInit"
  | .enumLiteral => some "EnumLiteral"
  | .errorValue => some "ErrorValue"
  | .errorSetDecl => some "ErrorSetDecl"
  | .builtinCall => some "BuiltinCall"
  | .asmExpr => some "AsmExpr"
  | .ident => some "Identifier"
  | .stringLiteral => some "StringLiteral"
  | .literal => some "Literal"
  | .ptrType => some "PtrType"
  | .sliceType => some "SliceType"
  | .arrayType => some "ArrayType"
  | .optionalType => some "OptionalType"
  | .anyframeType => some "AnyframeType"
  | .fnType => some "FnType"
  | .containerDecl => some "ContainerDecl"
  | .error => some "Error"
  | _ => none

/-- The texts of comments without their marks and the white space after them. -/
def commentText? (mark : Text) (comments : List (Leaf Kind)) : Option Text :=
  match comments with
  | [] => none
  | _ => some (Text.unlines (comments.map fun l => (Text.dropMarks mark l.text).trimEnd))

/-- The documentation comments in front of a declaration, a line for each. -/
def docComments? (n : Node Kind) : Option Text :=
  commentText? ['/', '/', '/']
    ((n.tokens.takeWhile Leaf.isTrivia).filter fun l => l.kind == .docComment)

namespace Identifier

def token? (n : Node Kind) : Option (Leaf Kind) := n.token? .identifier

def text (n : Node Kind) : Text := ((token? n).map fun l => l.text).getD []

/-- The name, quotes removed and escapes decoded. -/
def value (n : Node Kind) : Text := Literal.nameOf (text n)

end Identifier

/-- The first identifier among the children. -/
def name? (n : Node Kind) : Option (Node Kind) := n.child? .ident

namespace StringLiteral

def token? (n : Node Kind) : Option (Leaf Kind) :=
  n.childTokens.find? fun l => l.kind == .stringLiteralSingle || l.kind == .stringLiteralMulti

def isMultiline (n : Node Kind) : Bool :=
  (token? n).any fun l => l.kind == .stringLiteralMulti

/-- The parts of the document that make up the value. -/
def excerpts (n : Node Kind) : List Excerpt :=
  match token? n with
  | none => []
  | some l =>
      if isMultiline n then
        (n.childTokens.filter fun l => l.kind == .stringLiteralMulti).flatMap Leaf.lineContents
      else [l.quotedContent]

def ranges (n : Node Kind) : List Range := (excerpts n).map (Excerpt.range 0)

def content (n : Node Kind) : Text := Literal.value (isMultiline n) (excerpts n)

end StringLiteral

namespace SourceFile

def members (n : Node Kind) : List (Node Kind) :=
  n.childNodes.filter fun m => (construct? m.kind).isSome

/-- The comments about the file itself, a line for each. -/
def docComments? (n : Node Kind) : Option Text :=
  commentText? ['/', '/', '!'] (n.tokens.filter fun l => l.kind == .containerDocComment)

end SourceFile

namespace TestDecl

/-- The name of a test: a string or an identifier. -/
def name? (n : Node Kind) : Option Text :=
  match n.child? .stringLiteral with
  | some literal => some (StringLiteral.content literal)
  | none => (Zig.name? n).map Identifier.value

def body? (n : Node Kind) : Option (Node Kind) := n.child? .block

end TestDecl

namespace FnDecl

def paramList? (n : Node Kind) : Option (Node Kind) := n.child? .paramList

/-- Nodes that may stand after the parameters without being the return type. -/
def isClauseOrBody : Kind → Bool
  | .alignClause | .addrspaceClause | .linksectionClause | .callconvClause | .block => true
  | _ => false

/-- The node after the parameters that is no clause and no body. -/
def returnType? (n : Node Kind) : Option (Node Kind) :=
  ((n.childNodes.dropWhile fun m => m.kind != .paramList).drop 1).find? fun m =>
    !isClauseOrBody m.kind

def body? (n : Node Kind) : Option (Node Kind) := (n.childrenOf .block).getLast?

end FnDecl

namespace VarDecl

def type? (n : Node Kind) : Option (Node Kind) := n.nodeAfter? .colon

def initializer? (n : Node Kind) : Option (Node Kind) := n.nodeAfter? .eq

end VarDecl

/-- The name in front of a colon, for fields and parameters that have one. -/
def fieldName? (n : Node Kind) : Option (Node Kind) :=
  if n.hasToken .colon then n.childNodes.head?.filter fun m => m.kind == .ident else none

/-- The type after the colon, or the first node where there is no colon. -/
def fieldType? (n : Node Kind) : Option (Node Kind) :=
  if n.hasToken .colon then n.nodeAfter? .colon else n.childNodes.head?

namespace ContainerField

def default? (n : Node Kind) : Option (Node Kind) := n.nodeAfter? .eq

end ContainerField

namespace Block

def label? (n : Node Kind) : Option (Node Kind) := n.child? .label

def statements (n : Node Kind) : List (Node Kind) :=
  n.childNodes.filter fun m => m.kind != .label

end Block

/-- The first significant token among the children. -/
def operatorToken? (n : Node Kind) : Option (Leaf Kind) :=
  n.childTokens.find? fun l => !l.isTrivia

namespace BinaryExpr

def lhs? (n : Node Kind) : Option (Node Kind) := n.childNodes.head?

def rhs? (n : Node Kind) : Option (Node Kind) := n.childNodes[1]?

end BinaryExpr

/-- The arguments of a call. -/
def arguments (n : Node Kind) : List (Node Kind) :=
  match n.child? .argList with
  | some list => list.childNodes
  | none => []

namespace FieldExpr

def field? (n : Node Kind) : Option (Node Kind) := (n.childrenOf .ident).getLast?

end FieldExpr

namespace BuiltinCall

/-- The name of the builtin without the at sign. -/
def name? (n : Node Kind) : Option Text :=
  (n.token? .builtin).map fun l => l.text.dropWhile (· == '@')

end BuiltinCall

namespace InitList

/-- Whether no type stands in front of the list. -/
def isAnonymous (n : Node Kind) : Bool := !n.parent?.any fun m => m.kind == .initExpr

end InitList

namespace FieldInit

def value? (n : Node Kind) : Option (Node Kind) := n.nodeAfter? .eq

end FieldInit

namespace ContainerDecl

def keyword? (n : Node Kind) : Option (Leaf Kind) :=
  n.childTokens.find? fun l =>
    match l.kind with
    | .structKw | .enumKw | .unionKw | .opaqueKw => true
    | _ => false

/-- Kinds of nodes that are members of a container. -/
def isMember : Kind → Bool
  | .containerField | .fnDecl | .varDecl | .testDecl | .comptimeDecl | .usingnamespaceDecl => true
  | _ => false

def members (n : Node Kind) : List (Node Kind) := n.childNodes.filter fun m => isMember m.kind

end ContainerDecl

/-- The forms of a literal. -/
inductive LiteralForm where
  | integer
  | float
  | char
  | unreachable
deriving DecidableEq, Repr

namespace LiteralForm

def ofKind? : Kind → Option LiteralForm
  | .integer => some .integer
  | .float => some .float
  | .charLiteral => some .char
  | .unreachableKw => some .unreachable
  | _ => none

end LiteralForm

namespace LiteralNode

/-- The token of a literal and its form. -/
def token? (n : Node Kind) : Option (LiteralForm × Leaf Kind) :=
  n.childTokens.findSome? fun l => (LiteralForm.ofKind? l.kind).map fun form => (form, l)

/-- The character of a character literal. -/
def char? (n : Node Kind) : Option Char :=
  match token? n with
  | some (.char, l) => Literal.charOf? l.text
  | _ => none

end LiteralNode

end Zig
end ZigCst
