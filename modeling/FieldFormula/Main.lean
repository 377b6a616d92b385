import FieldFormula.Command

open FieldFormula

def readIfThere (path : String) : IO (Option String) := do
  try
    return some (← IO.FS.readFile path)
  catch _ =>
    return none

def main (args : List String) : IO UInt32 := do
  let paths := ((Request.parse args).map Request.paths).getD []
  let texts ← paths.mapM fun path => do return (path, ← readIfThere path)
  let response := Command.respond (fun path => (texts.lookup path).join) args
  IO.print response.output
  if let some e := response.error then
    IO.eprintln ("Error: " ++ e)
  if response.exitCode = 2 then
    IO.eprint Request.usage
  return response.exitCode
