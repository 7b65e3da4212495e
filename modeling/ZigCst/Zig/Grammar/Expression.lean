import ZigCst.Zig.Grammar.Type

/-!
# Expressions

Operators bind by seven precedences; all of them are left-associative, and
comparisons do not chain.
-/

universe u

namespace ZigCst
namespace Zig

open ZigCst.Parser

variable {m : Type → Type u} [Monad m] [Parsing Kind m] [Routines Routine m]

/-- Tokens that may start an expression.  They decide whether a jump carries an
operand. -/
def exprFirst : KindSet Kind :=
  .ofList
    [.identifier, .builtin, .integer, .float, .charLiteral, .stringLiteralSingle,
      .stringLiteralMulti, .leftParen, .leftBracket, .dot, .bang, .minus, .minusPercent, .tilde,
      .amp, .star, .star2, .question, .tryKw, .awaitKw, .ifKw, .switchKw, .whileKw, .forKw,
      .inlineKw, .comptimeKw, .nosuspendKw, .breakKw, .continueKw, .returnKw, .resumeKw, .fnKw,
      .errorKw, .structKw, .enumKw, .unionKw, .opaqueKw, .packedKw, .externKw, .unreachableKw,
      .anyframeKw, .asmKw]

/-- How strongly an operator between two operands binds. -/
def precedence? : Kind → Option (Fin 8)
  | .orKw => some 1
  | .andKw => some 2
  | .eq2 | .bangEq | .lt | .gt | .ltEq | .gtEq => some 3
  | .amp | .caret | .pipe | .orelseKw | .catchKw => some 4
  | .shl | .shr | .shlPipe => some 5
  | .plus | .minus | .plus2 | .plusPercent | .minusPercent | .plusPipe | .minusPipe => some 6
  | .pipe2 | .star | .slash | .percent | .star2 | .starPercent | .starPipe => some 7
  | _ => none

/-- The precedence of comparisons. -/
def comparison : Fin 8 := 3

/-- One token of inline assembly: whether parentheses are still open, and how
many.  None is closed that was not opened before. -/
def assemblyToken (depth : Nat) : m (Bool × Nat) := do
  if ← atEnd then return (false, depth)
  ensure (depth != 0 || (← peek) != .rightParen)
  let depth := match ← peek with
    | .leftParen => depth + 1
    | .rightParen => depth - 1
    | _ => depth
  advance
  return (depth != 0, depth)

/-- Inline assembly, its operands as bare tokens. -/
def asmExpr : m Kind := routine .asmExpr <|
  node .asmExpr do
    advance
    skip .volatileKw
    if ← at_ .leftParen then
      let depth ← iterate assemblyToken 0
      unless depth == 0 do
        report .unclosedAssembly
    else report .expectedAssemblyParen

/-- A name and a colon in front of a block or a loop. -/
def label : m Unit := routine .label <|
  discard <| node .label do
    name .empty
    expect .colon

/-- A colon and a name after a jump, and whether they are there. -/
def jumpLabel : m Bool := routine .jumpLabel do
  if (← at_ .colon) && (← nthAt 1 .identifier) then
    discard <| node .label do
      advance
      name .empty
    return true
  else return false

/-- An expression, if one starts here. -/
def optionalExpr (inner : LevelOf m) : m Unit := do
  if ← atAny exprFirst then discard inner.expr

def breakExpr (inner : LevelOf m) : m Kind :=
  node .breakExpr do
    advance
    discard jumpLabel
    optionalExpr inner

def continueExpr (inner : LevelOf m) : m Kind :=
  node .continueExpr do
    advance
    if ← jumpLabel then optionalExpr inner

def returnExpr (inner : LevelOf m) : m Kind :=
  node .returnExpr do
    advance
    optionalExpr inner

/-- A keyword and an expression. -/
def keywordExpr (inner : LevelOf m) (kind : Kind) : m Kind :=
  node kind do
    advance
    discard inner.expr

/-- A sequence or a range of numbers to loop over. -/
def forInput (inner : LevelOf m) : m Unit :=
  discard <| node .forInput do
    discard inner.expr
    if ← eat .dot2 then
      unless (← at_ .rightParen) || (← at_ .comma) do
        discard inner.expr

/-- What a loop does after each turn, if it says so. -/
def whileContinue (inner : LevelOf m) : m Unit := do
  if ← at_ .colon then
    discard <| node .whileContinue do
      advance
      expect .leftParen
      discard (assignExpr inner)
      expect .rightParen

/-- A loop after its label, and the kind that it turns out to have. -/
def loopBody (inner : LevelOf m) : m Kind := routine .loop do
  skip .inlineKw
  match ← peek with
  | .whileKw =>
      advance
      condition inner
      payload
      whileContinue inner
      discard (assignExpr inner)
      elseBranch inner
      return .whileExpr
  | .forKw =>
      advance
      list .forInputs (forInput inner)
      if ← at_ .pipe then payload
      else report .expectedCapture
      discard (assignExpr inner)
      elseBranch inner
      return .forExpr
  | _ =>
      report .expectedLoop
      return .error

/-- A block or a loop behind a label. -/
def labeled (inner : LevelOf m) : m Kind :=
  nodeOf do
    label
    if ← at_ .leftBrace then
      blockBody inner
      return .block
    else loopBody inner

/-- A type, or the initialization of one by a list. -/
def curlySuffix (inner : LevelOf m) : m (Option Kind) := routine .curlySuffix do
  match ← inner.type with
  | none => return none
  | some type =>
      if ← at_ .leftBrace then
        return some (← wrap .initExpr (discard (initList inner)))
      else return some type

/-- Whether a label stands in front of a block or a loop. -/
def atLabeled : m Bool := do
  if (← at_ .identifier) && (← nthAt 1 .colon) then
    match ← nth 2 with
    | .leftBrace | .whileKw | .forKw | .inlineKw => return true
    | _ => return false
  else return false

/-- An operand without operators in front of it. -/
def primaryExpr (inner : LevelOf m) : m (Option Kind) := routine .primaryExpr do
  if ← atLabeled then return some (← labeled inner)
  match ← peek with
  | .asmKw => return some (← asmExpr)
  | .ifKw => return some (← ifExpr inner)
  | .breakKw => return some (← breakExpr inner)
  | .continueKw => return some (← continueExpr inner)
  | .returnKw => return some (← returnExpr inner)
  | .comptimeKw => return some (← keywordExpr inner .comptimeExpr)
  | .nosuspendKw => return some (← keywordExpr inner .nosuspendExpr)
  | .resumeKw => return some (← keywordExpr inner .resumeExpr)
  | .inlineKw | .whileKw | .forKw => return some (← nodeOf (loopBody inner))
  | .leftBrace => return some (← node .block (blockBody inner))
  | _ => curlySuffix inner

/-- An operand with the operators in front of it. -/
def operandWith (inner : LevelOf m) : m (Option Kind) := do
  match ← peek with
  | .bang | .minus | .tilde | .minusPercent | .amp | .tryKw | .awaitKw =>
      return some (← node .prefixExpr do
        advance
        discard inner.operand)
  | _ => primaryExpr inner

/-- Operands and the operators between them that bind at least as strongly as
`least`. -/
def binaryExpr (inner : LevelOf m) (least : Nat) : m (Option Kind) := routine (.binaryExpr least) do
  match ← inner.operand with
  | none => return none
  | some lhs =>
      let (kind, _) ← iterate (fun (lhs, compared) => do
        match precedence? (← peek) with
        | none => return (false, lhs, compared)
        | some precedence =>
            if _h : least ≤ precedence.val then
              let compares := precedence == comparison
              if compares && compared then report .chainedComparison
              let kind ← wrap .binaryExpr do
                let catches ← at_ .catchKw
                advance
                if catches then payload
                discard (binaryExpr inner (precedence.val + 1))
              return (true, kind, compared || compares)
            else return (false, lhs, compared)) (lhs, false)
      return some kind
termination_by 8 - least
decreasing_by
  exact Nat.sub_lt_sub_left (by omega) (Nat.lt_succ_of_le _h)

/-- What stands for an expression, an operand or a type that is nested too deep. -/
def fail : m (Option Kind) := do
  tooDeep
  return none

/-- The functions of a level over those of the level further in. -/
def levelOver (inner : LevelOf m) : LevelOf m :=
  ⟨binaryExpr inner 1, operandWith inner, typeWith inner⟩

/-- The parsers that may nest `depth` levels deep. -/
def level : Nat → Level
  | 0 => ⟨fail, fail, fail⟩
  | depth + 1 => levelOver (level depth)

end Zig
end ZigCst
