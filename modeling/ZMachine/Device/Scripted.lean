import ZMachine.Device

/-! # Scripted device

    A device whose input is fixed beforehand and whose output is kept. -/

namespace ZMachine

/-- Lines still to be read, the text printed so far, and the status line shown last. -/
structure Scripted where
  input : List String := []
  output : String := ""
  status : Option (String × String) := none
  deriving DecidableEq, Repr

instance : Device Scripted where
  print text := .change fun d => { d with output := d.output ++ text }
  readLine := fun d =>
    match d.input with
    | [] => (.ok "", d)
    | line :: rest => (.ok line, { d with input := rest })
  showStatus location right := .change fun d => { d with status := some (location, right) }

end ZMachine
