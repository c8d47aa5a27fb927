import ZMachine.Frame

/-! # Call stack

    The frames of the routines that are running, innermost first. There is
    always one: the bottom frame cannot be popped. -/

namespace ZMachine

/-- The running frame and those of its callers, innermost first. -/
structure CallStack where
  top : Frame
  callers : List Frame := []
  deriving DecidableEq, Repr, Inhabited

namespace CallStack

/-- The number of frames. -/
def depth (s : CallStack) : Nat := s.callers.length + 1

/-- All frames, innermost first. -/
def frames (s : CallStack) : List Frame := s.top :: s.callers

/-- Makes a frame the running one. -/
def push (s : CallStack) (f : Frame) : CallStack :=
  { top := f, callers := s.top :: s.callers }

/-- Takes the running frame off and resumes its caller. -/
def pop (s : CallStack) : Except Fault (Frame × CallStack) :=
  match s.callers with
  | [] => .error .callStackUnderflow
  | caller :: rest => .ok (s.top, { top := caller, callers := rest })

/-- Replaces the running frame. -/
def withTop (s : CallStack) (f : Frame) : CallStack := { s with top := f }

end CallStack

end ZMachine
