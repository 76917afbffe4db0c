import FluentGrammar.Command.Run

/-! # The program -/

namespace FluentGrammar

/-- The files of the system. -/
def systemFiles : Files IO where
  read path := do
    try return some (← IO.FS.readFile path)
    catch _ => return none
  write path content := do
    try
      IO.FS.writeFile path content
      return true
    catch _ => return false

end FluentGrammar

def main (args : List String) : IO UInt32 := do
  let ending ← FluentGrammar.run FluentGrammar.systemFiles args
  (← IO.getStdout).putStr ending.output
  (← IO.getStderr).putStr ending.complaint
  return ending.code
