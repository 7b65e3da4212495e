import ZigCst.Text.Table
import ZigCst.Vocabulary

/-!
# Kinds of Zig source files

Token kinds come first, node kinds after `eof`, in the order in which sets of
kinds number them.

**Definitions.**
* `spelling?`: the text of punctuation and keywords.
* `keywords`, `ofKeyword?`: the table of keywords, and the one spelled by a word.
* `isAssignment`: the operators that build an assignment.
-/

namespace ZigCst
namespace Zig

/-- Kinds of tokens and nodes of a Zig source file. -/
inductive Kind where
  | leftParen
  | rightParen
  | leftBracket
  | rightBracket
  | leftBrace
  | rightBrace
  | dot
  | dot2
  | ellipsis
  | dotStar
  | comma
  | semicolon
  | colon
  | eq
  | eq2
  | fatArrow
  | bang
  | bangEq
  | lt
  | ltEq
  | shl
  | shlEq
  | shlPipe
  | shlPipeEq
  | gt
  | gtEq
  | shr
  | shrEq
  | plus
  | plusEq
  | plus2
  | plusPercent
  | plusPercentEq
  | plusPipe
  | plusPipeEq
  | minus
  | minusEq
  | arrow
  | minusPercent
  | minusPercentEq
  | minusPipe
  | minusPipeEq
  | star
  | starEq
  | star2
  | starPercent
  | starPercentEq
  | starPipe
  | starPipeEq
  | slash
  | slashEq
  | percent
  | percentEq
  | amp
  | ampEq
  | pipe
  | pipeEq
  | pipe2
  | caret
  | caretEq
  | tilde
  | question
  | addrspaceKw
  | alignKw
  | allowzeroKw
  | andKw
  | anyframeKw
  | anytypeKw
  | asmKw
  | asyncKw
  | awaitKw
  | breakKw
  | callconvKw
  | catchKw
  | comptimeKw
  | constKw
  | continueKw
  | deferKw
  | elseKw
  | enumKw
  | errdeferKw
  | errorKw
  | exportKw
  | externKw
  | fnKw
  | forKw
  | ifKw
  | inlineKw
  | linksectionKw
  | noaliasKw
  | noinlineKw
  | nosuspendKw
  | opaqueKw
  | orKw
  | orelseKw
  | packedKw
  | pubKw
  | resumeKw
  | returnKw
  | structKw
  | suspendKw
  | switchKw
  | testKw
  | threadlocalKw
  | tryKw
  | unionKw
  | unreachableKw
  | usingnamespaceKw
  | varKw
  | volatileKw
  | whileKw
  | identifier
  | builtin
  | integer
  | float
  | charLiteral
  | stringLiteralSingle
  | stringLiteralMulti
  | lineComment
  | docComment
  | containerDocComment
  | whitespace
  | stringText
  | validEscape
  | invalidCharacterEscape
  | invalidUnicodeEscape
  | badCharacter
  | eof
  | sourceFile
  | testDecl
  | comptimeDecl
  | usingnamespaceDecl
  | fnDecl
  | varDecl
  | containerField
  | paramList
  | param
  | alignClause
  | addrspaceClause
  | linksectionClause
  | callconvClause
  | block
  | label
  | exprStmt
  | assignExpr
  | deferStmt
  | suspendStmt
  | comptimeExpr
  | nosuspendExpr
  | ifExpr
  | elseBranch
  | whileExpr
  | whileContinue
  | forExpr
  | forInput
  | switchExpr
  | switchProng
  | switchCase
  | payload
  | breakExpr
  | continueExpr
  | returnExpr
  | resumeExpr
  | binaryExpr
  | prefixExpr
  | errorUnionExpr
  | parenExpr
  | callExpr
  | argList
  | fieldExpr
  | derefExpr
  | unwrapExpr
  | indexExpr
  | sliceExpr
  | initExpr
  | initList
  | fieldInit
  | enumLiteral
  | errorValue
  | errorSetDecl
  | builtinCall
  | asmExpr
  | ident
  | stringLiteral
  | literal
  | ptrType
  | sliceType
  | arrayType
  | optionalType
  | anyframeType
  | fnType
  | containerDecl
  | error
  | tombstone
deriving DecidableEq, Repr

namespace Kind

/-- Name of a kind in printed trees. -/
def name : Kind → String
  | .leftParen => "LEFT_PAREN"
  | .rightParen => "RIGHT_PAREN"
  | .leftBracket => "LEFT_BRACKET"
  | .rightBracket => "RIGHT_BRACKET"
  | .leftBrace => "LEFT_BRACE"
  | .rightBrace => "RIGHT_BRACE"
  | .dot => "DOT"
  | .dot2 => "DOT2"
  | .ellipsis => "ELLIPSIS"
  | .dotStar => "DOT_STAR"
  | .comma => "COMMA"
  | .semicolon => "SEMICOLON"
  | .colon => "COLON"
  | .eq => "EQ"
  | .eq2 => "EQ2"
  | .fatArrow => "FAT_ARROW"
  | .bang => "BANG"
  | .bangEq => "BANG_EQ"
  | .lt => "LT"
  | .ltEq => "LT_EQ"
  | .shl => "SHL"
  | .shlEq => "SHL_EQ"
  | .shlPipe => "SHL_PIPE"
  | .shlPipeEq => "SHL_PIPE_EQ"
  | .gt => "GT"
  | .gtEq => "GT_EQ"
  | .shr => "SHR"
  | .shrEq => "SHR_EQ"
  | .plus => "PLUS"
  | .plusEq => "PLUS_EQ"
  | .plus2 => "PLUS2"
  | .plusPercent => "PLUS_PERCENT"
  | .plusPercentEq => "PLUS_PERCENT_EQ"
  | .plusPipe => "PLUS_PIPE"
  | .plusPipeEq => "PLUS_PIPE_EQ"
  | .minus => "MINUS"
  | .minusEq => "MINUS_EQ"
  | .arrow => "ARROW"
  | .minusPercent => "MINUS_PERCENT"
  | .minusPercentEq => "MINUS_PERCENT_EQ"
  | .minusPipe => "MINUS_PIPE"
  | .minusPipeEq => "MINUS_PIPE_EQ"
  | .star => "STAR"
  | .starEq => "STAR_EQ"
  | .star2 => "STAR2"
  | .starPercent => "STAR_PERCENT"
  | .starPercentEq => "STAR_PERCENT_EQ"
  | .starPipe => "STAR_PIPE"
  | .starPipeEq => "STAR_PIPE_EQ"
  | .slash => "SLASH"
  | .slashEq => "SLASH_EQ"
  | .percent => "PERCENT"
  | .percentEq => "PERCENT_EQ"
  | .amp => "AMP"
  | .ampEq => "AMP_EQ"
  | .pipe => "PIPE"
  | .pipeEq => "PIPE_EQ"
  | .pipe2 => "PIPE2"
  | .caret => "CARET"
  | .caretEq => "CARET_EQ"
  | .tilde => "TILDE"
  | .question => "QUESTION"
  | .addrspaceKw => "ADDRSPACE_KW"
  | .alignKw => "ALIGN_KW"
  | .allowzeroKw => "ALLOWZERO_KW"
  | .andKw => "AND_KW"
  | .anyframeKw => "ANYFRAME_KW"
  | .anytypeKw => "ANYTYPE_KW"
  | .asmKw => "ASM_KW"
  | .asyncKw => "ASYNC_KW"
  | .awaitKw => "AWAIT_KW"
  | .breakKw => "BREAK_KW"
  | .callconvKw => "CALLCONV_KW"
  | .catchKw => "CATCH_KW"
  | .comptimeKw => "COMPTIME_KW"
  | .constKw => "CONST_KW"
  | .continueKw => "CONTINUE_KW"
  | .deferKw => "DEFER_KW"
  | .elseKw => "ELSE_KW"
  | .enumKw => "ENUM_KW"
  | .errdeferKw => "ERRDEFER_KW"
  | .errorKw => "ERROR_KW"
  | .exportKw => "EXPORT_KW"
  | .externKw => "EXTERN_KW"
  | .fnKw => "FN_KW"
  | .forKw => "FOR_KW"
  | .ifKw => "IF_KW"
  | .inlineKw => "INLINE_KW"
  | .linksectionKw => "LINKSECTION_KW"
  | .noaliasKw => "NOALIAS_KW"
  | .noinlineKw => "NOINLINE_KW"
  | .nosuspendKw => "NOSUSPEND_KW"
  | .opaqueKw => "OPAQUE_KW"
  | .orKw => "OR_KW"
  | .orelseKw => "ORELSE_KW"
  | .packedKw => "PACKED_KW"
  | .pubKw => "PUB_KW"
  | .resumeKw => "RESUME_KW"
  | .returnKw => "RETURN_KW"
  | .structKw => "STRUCT_KW"
  | .suspendKw => "SUSPEND_KW"
  | .switchKw => "SWITCH_KW"
  | .testKw => "TEST_KW"
  | .threadlocalKw => "THREADLOCAL_KW"
  | .tryKw => "TRY_KW"
  | .unionKw => "UNION_KW"
  | .unreachableKw => "UNREACHABLE_KW"
  | .usingnamespaceKw => "USINGNAMESPACE_KW"
  | .varKw => "VAR_KW"
  | .volatileKw => "VOLATILE_KW"
  | .whileKw => "WHILE_KW"
  | .identifier => "IDENTIFIER"
  | .builtin => "BUILTIN"
  | .integer => "INTEGER"
  | .float => "FLOAT"
  | .charLiteral => "CHAR_LITERAL"
  | .stringLiteralSingle => "STRING_LITERAL_SINGLE"
  | .stringLiteralMulti => "STRING_LITERAL_MULTI"
  | .lineComment => "LINE_COMMENT"
  | .docComment => "DOC_COMMENT"
  | .containerDocComment => "CONTAINER_DOC_COMMENT"
  | .whitespace => "WHITESPACE"
  | .stringText => "STRING_TEXT"
  | .validEscape => "VALID_ESCAPE"
  | .invalidCharacterEscape => "INVALID_CHARACTER_ESCAPE"
  | .invalidUnicodeEscape => "INVALID_UNICODE_ESCAPE"
  | .badCharacter => "BAD_CHARACTER"
  | .eof => "EOF"
  | .sourceFile => "SOURCE_FILE"
  | .testDecl => "TEST_DECL"
  | .comptimeDecl => "COMPTIME_DECL"
  | .usingnamespaceDecl => "USINGNAMESPACE_DECL"
  | .fnDecl => "FN_DECL"
  | .varDecl => "VAR_DECL"
  | .containerField => "CONTAINER_FIELD"
  | .paramList => "PARAM_LIST"
  | .param => "PARAM"
  | .alignClause => "ALIGN_CLAUSE"
  | .addrspaceClause => "ADDRSPACE_CLAUSE"
  | .linksectionClause => "LINKSECTION_CLAUSE"
  | .callconvClause => "CALLCONV_CLAUSE"
  | .block => "BLOCK"
  | .label => "LABEL"
  | .exprStmt => "EXPR_STMT"
  | .assignExpr => "ASSIGN_EXPR"
  | .deferStmt => "DEFER_STMT"
  | .suspendStmt => "SUSPEND_STMT"
  | .comptimeExpr => "COMPTIME_EXPR"
  | .nosuspendExpr => "NOSUSPEND_EXPR"
  | .ifExpr => "IF_EXPR"
  | .elseBranch => "ELSE_BRANCH"
  | .whileExpr => "WHILE_EXPR"
  | .whileContinue => "WHILE_CONTINUE"
  | .forExpr => "FOR_EXPR"
  | .forInput => "FOR_INPUT"
  | .switchExpr => "SWITCH_EXPR"
  | .switchProng => "SWITCH_PRONG"
  | .switchCase => "SWITCH_CASE"
  | .payload => "PAYLOAD"
  | .breakExpr => "BREAK_EXPR"
  | .continueExpr => "CONTINUE_EXPR"
  | .returnExpr => "RETURN_EXPR"
  | .resumeExpr => "RESUME_EXPR"
  | .binaryExpr => "BINARY_EXPR"
  | .prefixExpr => "PREFIX_EXPR"
  | .errorUnionExpr => "ERROR_UNION_EXPR"
  | .parenExpr => "PAREN_EXPR"
  | .callExpr => "CALL_EXPR"
  | .argList => "ARG_LIST"
  | .fieldExpr => "FIELD_EXPR"
  | .derefExpr => "DEREF_EXPR"
  | .unwrapExpr => "UNWRAP_EXPR"
  | .indexExpr => "INDEX_EXPR"
  | .sliceExpr => "SLICE_EXPR"
  | .initExpr => "INIT_EXPR"
  | .initList => "INIT_LIST"
  | .fieldInit => "FIELD_INIT"
  | .enumLiteral => "ENUM_LITERAL"
  | .errorValue => "ERROR_VALUE"
  | .errorSetDecl => "ERROR_SET_DECL"
  | .builtinCall => "BUILTIN_CALL"
  | .asmExpr => "ASM_EXPR"
  | .ident => "IDENT"
  | .stringLiteral => "STRING_LITERAL"
  | .literal => "LITERAL"
  | .ptrType => "PTR_TYPE"
  | .sliceType => "SLICE_TYPE"
  | .arrayType => "ARRAY_TYPE"
  | .optionalType => "OPTIONAL_TYPE"
  | .anyframeType => "ANYFRAME_TYPE"
  | .fnType => "FN_TYPE"
  | .containerDecl => "CONTAINER_DECL"
  | .error => "ERROR"
  | .tombstone => "TOMBSTONE"

/-- Every kind, in declaration order. -/
def all : List Kind :=
  [.leftParen, .rightParen, .leftBracket, .rightBracket, .leftBrace, .rightBrace, .dot, .dot2,
    .ellipsis, .dotStar, .comma, .semicolon, .colon, .eq, .eq2, .fatArrow, .bang, .bangEq, .lt,
    .ltEq, .shl, .shlEq, .shlPipe, .shlPipeEq, .gt, .gtEq, .shr, .shrEq, .plus, .plusEq,
    .plus2, .plusPercent, .plusPercentEq, .plusPipe, .plusPipeEq, .minus, .minusEq, .arrow,
    .minusPercent, .minusPercentEq, .minusPipe, .minusPipeEq, .star, .starEq, .star2,
    .starPercent, .starPercentEq, .starPipe, .starPipeEq, .slash, .slashEq, .percent,
    .percentEq, .amp, .ampEq, .pipe, .pipeEq, .pipe2, .caret, .caretEq, .tilde, .question,
    .addrspaceKw, .alignKw, .allowzeroKw, .andKw, .anyframeKw, .anytypeKw, .asmKw, .asyncKw,
    .awaitKw, .breakKw, .callconvKw, .catchKw, .comptimeKw, .constKw, .continueKw, .deferKw,
    .elseKw, .enumKw, .errdeferKw, .errorKw, .exportKw, .externKw, .fnKw, .forKw, .ifKw,
    .inlineKw, .linksectionKw, .noaliasKw, .noinlineKw, .nosuspendKw, .opaqueKw, .orKw,
    .orelseKw, .packedKw, .pubKw, .resumeKw, .returnKw, .structKw, .suspendKw, .switchKw,
    .testKw, .threadlocalKw, .tryKw, .unionKw, .unreachableKw, .usingnamespaceKw, .varKw,
    .volatileKw, .whileKw, .identifier, .builtin, .integer, .float, .charLiteral,
    .stringLiteralSingle, .stringLiteralMulti, .lineComment, .docComment, .containerDocComment,
    .whitespace, .stringText, .validEscape, .invalidCharacterEscape, .invalidUnicodeEscape,
    .badCharacter, .eof, .sourceFile, .testDecl, .comptimeDecl, .usingnamespaceDecl, .fnDecl,
    .varDecl, .containerField, .paramList, .param, .alignClause, .addrspaceClause,
    .linksectionClause, .callconvClause, .block, .label, .exprStmt, .assignExpr, .deferStmt,
    .suspendStmt, .comptimeExpr, .nosuspendExpr, .ifExpr, .elseBranch, .whileExpr,
    .whileContinue, .forExpr, .forInput, .switchExpr, .switchProng, .switchCase, .payload,
    .breakExpr, .continueExpr, .returnExpr, .resumeExpr, .binaryExpr, .prefixExpr,
    .errorUnionExpr, .parenExpr, .callExpr, .argList, .fieldExpr, .derefExpr, .unwrapExpr,
    .indexExpr, .sliceExpr, .initExpr, .initList, .fieldInit, .enumLiteral, .errorValue,
    .errorSetDecl, .builtinCall, .asmExpr, .ident, .stringLiteral, .literal, .ptrType,
    .sliceType, .arrayType, .optionalType, .anyframeType, .fnType, .containerDecl, .error,
    .tombstone]

def isKeyword (k : Kind) : Bool :=
  addrspaceKw.ctorIdx ≤ k.ctorIdx && k.ctorIdx ≤ whileKw.ctorIdx

/-- The keywords with their spellings. -/
def keywords : List (Text × Kind) :=
  [(['a', 'd', 'd', 'r', 's', 'p', 'a', 'c', 'e'], .addrspaceKw),
    (['a', 'l', 'i', 'g', 'n'], .alignKw),
    (['a', 'l', 'l', 'o', 'w', 'z', 'e', 'r', 'o'], .allowzeroKw),
    (['a', 'n', 'd'], .andKw),
    (['a', 'n', 'y', 'f', 'r', 'a', 'm', 'e'], .anyframeKw),
    (['a', 'n', 'y', 't', 'y', 'p', 'e'], .anytypeKw),
    (['a', 's', 'm'], .asmKw),
    (['a', 's', 'y', 'n', 'c'], .asyncKw),
    (['a', 'w', 'a', 'i', 't'], .awaitKw),
    (['b', 'r', 'e', 'a', 'k'], .breakKw),
    (['c', 'a', 'l', 'l', 'c', 'o', 'n', 'v'], .callconvKw),
    (['c', 'a', 't', 'c', 'h'], .catchKw),
    (['c', 'o', 'm', 'p', 't', 'i', 'm', 'e'], .comptimeKw),
    (['c', 'o', 'n', 's', 't'], .constKw),
    (['c', 'o', 'n', 't', 'i', 'n', 'u', 'e'], .continueKw),
    (['d', 'e', 'f', 'e', 'r'], .deferKw),
    (['e', 'l', 's', 'e'], .elseKw),
    (['e', 'n', 'u', 'm'], .enumKw),
    (['e', 'r', 'r', 'd', 'e', 'f', 'e', 'r'], .errdeferKw),
    (['e', 'r', 'r', 'o', 'r'], .errorKw),
    (['e', 'x', 'p', 'o', 'r', 't'], .exportKw),
    (['e', 'x', 't', 'e', 'r', 'n'], .externKw),
    (['f', 'n'], .fnKw),
    (['f', 'o', 'r'], .forKw),
    (['i', 'f'], .ifKw),
    (['i', 'n', 'l', 'i', 'n', 'e'], .inlineKw),
    (['l', 'i', 'n', 'k', 's', 'e', 'c', 't', 'i', 'o', 'n'], .linksectionKw),
    (['n', 'o', 'a', 'l', 'i', 'a', 's'], .noaliasKw),
    (['n', 'o', 'i', 'n', 'l', 'i', 'n', 'e'], .noinlineKw),
    (['n', 'o', 's', 'u', 's', 'p', 'e', 'n', 'd'], .nosuspendKw),
    (['o', 'p', 'a', 'q', 'u', 'e'], .opaqueKw),
    (['o', 'r'], .orKw),
    (['o', 'r', 'e', 'l', 's', 'e'], .orelseKw),
    (['p', 'a', 'c', 'k', 'e', 'd'], .packedKw),
    (['p', 'u', 'b'], .pubKw),
    (['r', 'e', 's', 'u', 'm', 'e'], .resumeKw),
    (['r', 'e', 't', 'u', 'r', 'n'], .returnKw),
    (['s', 't', 'r', 'u', 'c', 't'], .structKw),
    (['s', 'u', 's', 'p', 'e', 'n', 'd'], .suspendKw),
    (['s', 'w', 'i', 't', 'c', 'h'], .switchKw),
    (['t', 'e', 's', 't'], .testKw),
    (['t', 'h', 'r', 'e', 'a', 'd', 'l', 'o', 'c', 'a', 'l'], .threadlocalKw),
    (['t', 'r', 'y'], .tryKw),
    (['u', 'n', 'i', 'o', 'n'], .unionKw),
    (['u', 'n', 'r', 'e', 'a', 'c', 'h', 'a', 'b', 'l', 'e'], .unreachableKw),
    (['u', 's', 'i', 'n', 'g', 'n', 'a', 'm', 'e', 's', 'p', 'a', 'c', 'e'], .usingnamespaceKw),
    (['v', 'a', 'r'], .varKw),
    (['v', 'o', 'l', 'a', 't', 'i', 'l', 'e'], .volatileKw),
    (['w', 'h', 'i', 'l', 'e'], .whileKw)]

/-- The keyword spelled by a word. -/
def ofKeyword? (word : Text) : Option Kind := word.lookup? keywords

/-- The one spelling of punctuation and keywords.  That of a keyword stands in the table
where the keyword stands among its declarations. -/
def spelling? (k : Kind) : Option Text :=
  if k.isKeyword then
    keywords[k.ctorIdx - addrspaceKw.ctorIdx]?.map Prod.fst
  else
    match k with
    | .leftParen => some ['(']
    | .rightParen => some [')']
    | .leftBracket => some ['[']
    | .rightBracket => some [']']
    | .leftBrace => some ['\x7b']
    | .rightBrace => some ['\x7d']
    | .dot => some ['.']
    | .dot2 => some ['.', '.']
    | .ellipsis => some ['.', '.', '.']
    | .dotStar => some ['.', '*']
    | .comma => some [',']
    | .semicolon => some [';']
    | .colon => some [':']
    | .eq => some ['=']
    | .eq2 => some ['=', '=']
    | .fatArrow => some ['=', '>']
    | .bang => some ['!']
    | .bangEq => some ['!', '=']
    | .lt => some ['<']
    | .ltEq => some ['<', '=']
    | .shl => some ['<', '<']
    | .shlEq => some ['<', '<', '=']
    | .shlPipe => some ['<', '<', '|']
    | .shlPipeEq => some ['<', '<', '|', '=']
    | .gt => some ['>']
    | .gtEq => some ['>', '=']
    | .shr => some ['>', '>']
    | .shrEq => some ['>', '>', '=']
    | .plus => some ['+']
    | .plusEq => some ['+', '=']
    | .plus2 => some ['+', '+']
    | .plusPercent => some ['+', '%']
    | .plusPercentEq => some ['+', '%', '=']
    | .plusPipe => some ['+', '|']
    | .plusPipeEq => some ['+', '|', '=']
    | .minus => some ['-']
    | .minusEq => some ['-', '=']
    | .arrow => some ['-', '>']
    | .minusPercent => some ['-', '%']
    | .minusPercentEq => some ['-', '%', '=']
    | .minusPipe => some ['-', '|']
    | .minusPipeEq => some ['-', '|', '=']
    | .star => some ['*']
    | .starEq => some ['*', '=']
    | .star2 => some ['*', '*']
    | .starPercent => some ['*', '%']
    | .starPercentEq => some ['*', '%', '=']
    | .starPipe => some ['*', '|']
    | .starPipeEq => some ['*', '|', '=']
    | .slash => some ['/']
    | .slashEq => some ['/', '=']
    | .percent => some ['%']
    | .percentEq => some ['%', '=']
    | .amp => some ['&']
    | .ampEq => some ['&', '=']
    | .pipe => some ['|']
    | .pipeEq => some ['|', '=']
    | .pipe2 => some ['|', '|']
    | .caret => some ['^']
    | .caretEq => some ['^', '=']
    | .tilde => some ['~']
    | .question => some ['?']
    | _ => none

/-- The table of keywords gives every one of them its spelling. -/
theorem keyword_of_mem_keywords {word : Text} {k : Kind} (h : (word, k) ∈ keywords) :
    k.isKeyword = true ∧ k.spelling? = some word := by
  have hall : ∀ x ∈ keywords, x.2.isKeyword = true ∧ x.2.spelling? = some x.1 := by
    decide +kernel
  exact hall (word, k) h

theorem isKeyword_of_ofKeyword? {word : Text} {k : Kind} (h : ofKeyword? word = some k) :
    k.isKeyword = true :=
  (keyword_of_mem_keywords (Text.mem_of_search? h)).1

/-- Whether an operator assigns to what stands before it. -/
def isAssignment : Kind → Bool
  | .eq | .starEq | .starPipeEq | .slashEq | .percentEq | .plusEq | .plusPipeEq | .minusEq
  | .minusPipeEq | .shlEq | .shlPipeEq | .shrEq | .ampEq | .caretEq | .pipeEq | .starPercentEq
  | .plusPercentEq | .minusPercentEq => true
  | _ => false

def isTrivia : Kind → Bool
  | .whitespace | .lineComment | .docComment | .containerDocComment => true
  | _ => false

def isString : Kind → Bool
  | .stringLiteralSingle | .stringLiteralMulti => true
  | _ => false

def delimiter? : Kind → Option Delimiter
  | .leftParen | .leftBracket | .leftBrace => some .opening
  | .rightParen | .rightBracket | .rightBrace => some .closing
  | .comma | .semicolon => some .separator
  | _ => none

end Kind

instance : Vocabulary Kind where
  all := Kind.all
  index := Kind.ctorIdx
  name := Kind.name
  spelling? := Kind.spelling?
  isTrivia := Kind.isTrivia
  isString := Kind.isString
  delimiter? := Kind.delimiter?
  eof := .eof
  badCharacter := .badCharacter
  error := .error
  tombstone := .tombstone

instance : LawfulVocabulary Kind where
  isTrivia_eof := rfl
  error_ne_tombstone := nofun

end Zig
end ZigCst
