import ZigCst.Zig.Grammar.Expression

/-!
# The functions of the Zig grammar by their names

Every name stands for one function over a level.  A list stands for its brackets together with
the items that the grammar puts into them.
-/

universe u

namespace ZigCst
namespace Zig

open ZigCst.Parser

variable {m : Type → Type u} [Monad m] [Parsing Kind m] [Routines Routine m]

/-- One item of a list. -/
def listed (inner : LevelOf m) : Listing → m Unit
  | .parameters => param inner
  | .arguments => discard inner.expr
  | .initializers => initializer inner
  | .forInputs => forInput inner
  | .switchProngs => switchProng inner
  | .errorNames => name recovery

/-- The functions of the grammar over a level. -/
def function (inner : LevelOf m) {α : Type} : Routine α → m α
  | .expr => inner.expr
  | .operand => inner.operand
  | .type => inner.type
  | .name recovery => name recovery
  | .condition => condition inner
  | .payload => payload
  | .assignExpr => assignExpr inner
  | .elseBranch => elseBranch inner
  | .label => label
  | .jumpLabel => jumpLabel
  | .alignClause => alignClause inner
  | .clauses ofFunction => clauses inner ofFunction
  | .param => param inner
  | .switchProng => switchProng inner
  | .delimited listing => list listing (listed inner listing)
  | .paramList => paramList inner
  | .argList => argList inner
  | .initList => initList inner
  | .ifExpr => ifExpr inner
  | .switchExpr => switchExpr inner
  | .asmExpr => asmExpr
  | .loop => loopBody inner
  | .fnProto => fnProto inner
  | .varDecl => varDecl inner
  | .statementBody => statementBody inner
  | .statement => statement inner
  | .blockBody => blockBody inner
  | .block => block inner
  | .testDecl => testDecl inner
  | .decl => decl inner
  | .containerField => containerField inner
  | .containerMember => containerMember inner
  | .containerMembers inBraces => containerMembers inner inBraces
  | .containerDecl => containerDecl inner
  | .primaryType => primaryType inner
  | .suffixExpr => suffixExpr inner
  | .errorUnion => errorUnion inner
  | .pointerModifiers => pointerModifiers inner
  | .bracketType => bracketType inner
  | .curlySuffix => curlySuffix inner
  | .primaryExpr => primaryExpr inner
  | .binaryExpr least => binaryExpr inner least
  | .sourceFile => fileOver inner

end Zig
end ZigCst
