import ZigCst.Parse
import ZigCst.Zig.Grammar.Expression
import ZigCst.Zig.Lexer

/-!
# Parsing Zig
-/

namespace ZigCst
namespace Zig

open ZigCst.Parser

def sourceFile : Parser Kind Unit := fileOver (level maxDepth)

/-- Parses a Zig file. -/
def parse? : Text → Option (Parse Kind) := Parse.ofGrammar? lex sourceFile

end Zig
end ZigCst
