import Mathlib.Data.Int.Notation
import Mathlib.Logic.Function.Basic
import Pgw.Lib.TransitionSystem

/-!
# Descriptors and their handles

A `UniqueFd` is the member `fd_`, a number. What the number stands for is known to the
kernel only: its table says which numbers are open, and it gives out a number again
once it has been closed. A handle that kept a stale number would close somebody
else's descriptor.

The process runs operations on handles, in any order and any number of them, and opens
and closes descriptors elsewhere. Descriptors that a handle adopts are numbered as
they are opened; these serials and the records of the calls are bookkeeping that no
operation looks at, the rest of the process apart, which closes only what is its own.
-/
namespace Pgw.UniqueFd
open TransitionSystem

/-! ## Data -/

/-- Whose descriptor an open number is. -/
inductive Owner where
  /-- Opened for a handle. -/
  | adopted (serial : ℕ)
  /-- Opened elsewhere in the process. -/
  | foreign
  deriving DecidableEq

/-- A call of `close` by a handle. -/
structure CloseCall where
  fd : ℤ
  /-- `fd_` of the calling handle, at the call. -/
  held : Option ℤ
  /-- What the kernel closes. -/
  found : Option Owner

/-- The handles `η` of a process and the kernel's table. -/
structure Process (η : Type) where
  /-- `fd_`, of the live handles. -/
  handles : η → Option ℤ
  table : ℤ → Option Owner
  /-- How many descriptors were adopted. -/
  arrived : ℕ
  /-- What calls of `release` have given away. -/
  released : List ℕ
  /-- What handles have closed. -/
  closed : List ℕ
  closes : List CloseCall

inductive Op (η : Type) where
  /-- `UniqueFd(fd)`, with the number just returned by the kernel: a new one or −1. -/
  | construct (h : η) (fd : ℤ)
  /-- `UniqueFd(std::move(other))`. -/
  | moveConstruct (h other : η)
  /-- `*h = std::move(*other)`. -/
  | moveAssign (h other : η)
  | release (h : η)
  | destroy (h : η)
  | openElsewhere (fd : ℤ)
  | closeElsewhere (fd : ℤ)

variable {η : Type}

def Process.initial : Process η := ⟨fun _ => none, fun _ => none, 0, [], [], []⟩

/-- The adopted descriptor under this number, if it is one. -/
def Process.serialAt (p : Process η) (fd : ℤ) : List ℕ :=
  match p.table fd with
  | some (.adopted serial) => [serial]
  | _ => []

/-! ## The members of `UniqueFd` -/

/-- `close(fd)`, called by the handle `h`. On a number that is not open it fails, and
nobody looks at the result. -/
def Process.close (p : Process η) (h : η) (fd : ℤ) : Process η :=
  { p with
    table := Function.update p.table fd none
    closed := p.closed ++ p.serialAt fd
    closes := p.closes ++ [⟨fd, p.handles h, p.table fd⟩] }

/-- The kernel opens a descriptor for a handle. -/
def Process.adopt (p : Process η) (fd : ℤ) : Process η :=
  { p with
    table := Function.update p.table fd (some (.adopted p.arrived))
    arrived := p.arrived + 1 }

variable [DecidableEq η]

def Process.put (p : Process η) (h : η) (fd : Option ℤ) : Process η :=
  { p with handles := Function.update p.handles h fd }

/-- `reset(fd)`; there is no test of `fd_`. -/
def Process.reset (p : Process η) (h : η) (mine fd : ℤ) : Process η :=
  (p.close h mine).put h (some fd)

/-- `~UniqueFd()`. -/
def Process.destroy (p : Process η) (h : η) (mine : ℤ) : Process η :=
  (if 0 ≤ mine then p.close h mine else p).put h none

/-- `operator=(UniqueFd &&)`; `mine` and `theirs` are the two members `fd_`. -/
def Process.moveAssign (p : Process η) (h other : η) (mine theirs : ℤ) : Process η :=
  if h ≠ other then (p.put other (some (-1))).reset h mine theirs else p

/-- `UniqueFd(UniqueFd &&)`. -/
def Process.moveConstruct (p : Process η) (h other : η) (theirs : ℤ) : Process η :=
  (p.put other (some (-1))).put h (some theirs)

/-- `release()`, with what its result stands for. -/
def Process.release (p : Process η) (h : η) (mine : ℤ) : Process η :=
  { p.put h (some (-1)) with released := p.released ++ p.serialAt mine }

/-- The rest of the process may close the number: it has opened it, or it was given
the result of `release`. -/
def Process.mayClose (p : Process η) (fd : ℤ) : Bool :=
  match p.table fd with
  | some .foreign => true
  | some (.adopted serial) => p.released.contains serial
  | none => false

section
variable {p : Process η} {h other : η}

@[simp] theorem put_handles_self (v : Option ℤ) : (p.put h v).handles h = v := by
  simp [Process.put]

@[simp] theorem put_handles_of_ne (v : Option ℤ) (hne : other ≠ h) :
    (p.put h v).handles other = p.handles other := by
  simp [Process.put, hne]

@[simp] theorem put_table (v : Option ℤ) : (p.put h v).table = p.table := rfl
@[simp] theorem put_closes (v : Option ℤ) : (p.put h v).closes = p.closes := rfl

omit [DecidableEq η]

@[simp] theorem close_handles (fd : ℤ) : (p.close h fd).handles = p.handles := rfl

@[simp] theorem close_table (fd : ℤ) :
    (p.close h fd).table = Function.update p.table fd none := rfl

@[simp] theorem close_closes (fd : ℤ) :
    (p.close h fd).closes = p.closes ++ [⟨fd, p.handles h, p.table fd⟩] := rfl

end

/-! ## Runs -/

/-- An operation on handles that are alive; a constructed handle is not. -/
def next (op : Op η) (p : Process η) : Option (Process η) :=
  match op with
  | .construct h fd =>
      if p.handles h = none then
        if fd = -1 then some (p.put h (some fd))
        else if 0 ≤ fd ∧ p.table fd = none then some ((p.adopt fd).put h (some fd))
        else none
      else none
  | .moveConstruct h other =>
      match p.handles h, p.handles other with
      | none, some theirs => some (p.moveConstruct h other theirs)
      | _, _ => none
  | .moveAssign h other =>
      match p.handles h, p.handles other with
      | some mine, some theirs => some (p.moveAssign h other mine theirs)
      | _, _ => none
  | .release h => (p.handles h).map (p.release h)
  | .destroy h => (p.handles h).map (p.destroy h)
  | .openElsewhere fd =>
      if 0 ≤ fd ∧ p.table fd = none then
        some { p with table := Function.update p.table fd (some .foreign) }
      else none
  | .closeElsewhere fd =>
      if p.mayClose fd then some { p with table := Function.update p.table fd none } else none

def Step (p : Process η) (op : Op η) (q : Process η) : Prop := next op p = some q

def Initial (p : Process η) : Prop := p = .initial

/-- Every state that a sequence of operations leads to. -/
def Reaches (p : Process η) : Prop := Reachable Initial Step p

end Pgw.UniqueFd
