import A64Disassembler.Command.Run
import A64Disassembler.Host.Container.Signature
import A64Disassembler.Host.Demangle

/-!
# The libraries of the executable

What the command leaves open is filled in here: readers of the usual formats of object files, the
usual way of mangling names, and the attributes of terminals.
-/

namespace A64Disassembler.Host

open Command (Ink Libraries)

/-- A text between the start and the end of a terminal attribute. -/
def withAttribute (start stop : String) (text : String) : String :=
  "\x1b[" ++ start ++ "m" ++ text ++ "\x1b[" ++ stop ++ "m"

/-- A text in a color or dimmed. -/
def paint : Ink → String → String
  | .yellow => withAttribute "33" "39"
  | .blue => withAttribute "34" "39"
  | .magenta => withAttribute "35" "39"
  | .green => withAttribute "32" "39"
  | .dimmed => withAttribute "2" "0"

/-- The libraries of the executable. -/
def libraries : Libraries where
  object := Container.library
  rustName? name := (Demangle.rust? name.toList).map String.ofList
  cppName? name := (Demangle.gnuV3? name.toList).map String.ofList
  paint := paint

end A64Disassembler.Host
