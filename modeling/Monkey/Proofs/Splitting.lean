import Monkey.Proofs.Bindings
import Monkey.Proofs.Tandem

/-!
# A program in two inputs

A program may be given to a session in two parts. The first part then runs as it does in the whole
program, and so does the second: it finds the globals and the console as the first part left them,
and its machine numbers new objects where the first one stopped. The program itself is an object
too, but all programs of a session have the same identity, so that a machine more or less is not
seen in the numbers.

What is left behind is the same session, whatever addresses the console gives to objects. Only the
stream that was compiled last is another one.
-/

namespace Monkey

namespace Compiler

variable {c c' : Compiler} {a b : Program}

end Compiler

namespace Session

variable {s : Session} {stages : List Stage} {p a b : Program} {v : Value}

/-! ## Evaluations that are accepted -/

/-- The session after an accepted program whose run has come to this machine. -/
def after (s : Session) (c : Compiler) (m : Machine) : Session :=
  { s with compiler := c, globals := m.globals, issued := m.issued, console := m.console }

end Session

end Monkey
