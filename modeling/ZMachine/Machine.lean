import ZMachine.CallStack
import ZMachine.Device
import ZMachine.Dictionary
import ZMachine.Object.Table
import ZMachine.Random.Generator

/-! # The machine

    A machine is a story and the state of its execution. What is read from the
    story once, when it is loaded, stays as it is: later writes to memory do
    not change it. A session is a machine together with the device that it
    talks to. -/

namespace ZMachine

/-- How variable 0 works. -/
inductive StackRule where
  /-- Reading pops, writing pushes, and references work on the top in place. -/
  | standard
  /-- Reading leaves the top in place, and `pull` drops what it pops. -/
  | legacy
  deriving DecidableEq, Repr, Inhabited

/-- How a story is to be run. -/
structure Rules where
  stack : StackRule := .standard
  /-- The seed of the random numbers; without one they are unpredictable. -/
  seed : Option UInt64 := none
  /-- The number of instructions after which to stop; none and 0 stand for no limit. -/
  limit : Option Nat := none
  deriving DecidableEq, Repr, Inhabited

/-- A story as it was loaded, and what is read from it then. -/
structure Story where
  image : Memory
  header : Header
  objects : ObjectTable
  /-- The short names of the objects, in the order of their numbers. -/
  names : List String
  dictionary : Dictionary
  deriving DecidableEq, Inhabited

namespace Story

/-- Loads a story image. -/
def load (image : Memory) : Except Fault Story := do
  let header ← Header.ofImage image
  let objects ← ObjectTable.ofMemory image header
  let names ← objects.names image header.abbreviations.toNat
  let dictionary ← Dictionary.ofMemory image header
  pure { image, header, objects, names, dictionary }

/-- The short name of an object. -/
def name? (s : Story) (o : UInt16) : Option String :=
  match o.toNat with
  | 0 => none
  | i + 1 => s.names[i]?

end Story

/-- Where printed text goes. -/
structure Streams where
  /-- Whether text is shown on the screen. -/
  screen : Bool := true
  /-- The addresses of the tables that are open for text, innermost first. -/
  tables : List Nat := []
  deriving DecidableEq, Repr, Inhabited

/-- A story and the state of its execution. -/
structure Machine where
  story : Story
  rules : Rules
  memory : Memory
  /-- The address of the next byte to execute. -/
  pc : Nat
  calls : CallStack
  streams : Streams := {}
  random : Random.Generator
  /-- What the next unpredictable generator is made from. -/
  entropy : UInt64
  /-- Whether the story has quit. -/
  quit : Bool := false
  /-- The number of instructions that have been executed. -/
  count : Nat := 0
  deriving DecidableEq

namespace Machine

/-- The generator that a story starts with. -/
def firstGenerator (rules : Rules) (entropy : UInt64) : Random.Generator :=
  match rules.seed with
  | some seed => .predictable seed
  | none => .unpredictable entropy

/-- A machine at the start of a story. -/
def start (story : Story) (rules : Rules) (entropy : UInt64) : Machine :=
  { story, rules
    memory := story.image
    pc := story.header.initialPc.toNat
    calls := { top := Frame.main story.header.initialPc.toNat }
    random := firstGenerator rules entropy
    entropy := Random.StreamKey.nextSeed entropy }

/-- Loads a story image and starts it. -/
def load (image : Memory) (rules : Rules) (entropy : UInt64) : Except Fault Machine := do
  let story ← Story.load image
  pure (start story rules entropy)

/-- Runs an action on the memory of a machine. -/
def onMemory {α : Type} (x : Action Memory α) : Action Machine α := fun m =>
  let memory := m.memory
  let m := { m with memory := .empty }
  match x memory with
  | (r, memory) => (r, { m with memory })

/-- Yields what `f` finds in the memory of a machine. -/
def askMemory {α : Type} (f : Memory → Except Fault α) : Action Machine α :=
  .ask fun m => f m.memory

end Machine

/-- A machine and the device that it talks to. -/
structure Session (δ : Type) where
  machine : Machine
  device : δ

namespace Session

variable {δ α : Type}

/-- Runs an action on the machine of a session. -/
def onMachine (x : Action Machine α) : Action (Session δ) α := fun ⟨m, d⟩ =>
  match x m with
  | (r, m) => (r, ⟨m, d⟩)

/-- Runs an action on the device of a session. -/
def onDevice (x : Action δ α) : Action (Session δ) α := fun ⟨m, d⟩ =>
  match x d with
  | (r, d) => (r, ⟨m, d⟩)

end Session

end ZMachine
