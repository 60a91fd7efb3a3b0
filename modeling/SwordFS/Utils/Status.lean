import Mathlib.Algebra.Ring.Int.Defs
import Mathlib.Algebra.Ring.Nat

/-!
# Status

内部 API が返す失敗。成功は `Except.ok` であり、`Status` は失敗の側だけを表す。
-/

namespace SwordFS

/-- `Status::Code` のうち `kOk` 以外 -/
inductive Code where
  | notFound
  | endOfDirectory
  | alreadyExists
  | notDirectory
  | isDirectory
  | notEmpty
  | invalidArgument
  | malformed
  | notSupported
  | operationNotSupported
  | notTty
  | noData
  | ioError
  | unavailable
  | outcomeUnknown
  | busy
  | wouldBlock
  | interrupted
  | noLocks
  | notPermitted
  | permission
  | noMemory
  | nameTooLong
  | range
  | internal
deriving DecidableEq, Repr

/-- 失敗の種類と message -/
structure Status where
  code : Code
  msg : String
deriving DecidableEq, Repr

namespace Status

def notFound (msg : String) : Status := ⟨.notFound, msg⟩
def alreadyExists (msg : String) : Status := ⟨.alreadyExists, msg⟩
def notDirectory (msg : String) : Status := ⟨.notDirectory, msg⟩
def isDirectory (msg : String) : Status := ⟨.isDirectory, msg⟩
def notEmpty (msg : String) : Status := ⟨.notEmpty, msg⟩
def invalidArgument (msg : String) : Status := ⟨.invalidArgument, msg⟩
def malformed (msg : String) : Status := ⟨.malformed, msg⟩
def ioError (msg : String) : Status := ⟨.ioError, msg⟩
def unavailable (msg : String) : Status := ⟨.unavailable, msg⟩
def outcomeUnknown (msg : String) : Status := ⟨.outcomeUnknown, msg⟩
def busy (msg : String) : Status := ⟨.busy, msg⟩
def wouldBlock (msg : String) : Status := ⟨.wouldBlock, msg⟩
def noLocks (msg : String) : Status := ⟨.noLocks, msg⟩
def notPermitted (msg : String) : Status := ⟨.notPermitted, msg⟩
def permission (msg : String) : Status := ⟨.permission, msg⟩
def nameTooLong (msg : String) : Status := ⟨.nameTooLong, msg⟩
def operationNotSupported (msg : String) : Status := ⟨.operationNotSupported, msg⟩
def noData (msg : String) : Status := ⟨.noData, msg⟩
def range (msg : String) : Status := ⟨.range, msg⟩
def internal (msg : String) : Status := ⟨.internal, msg⟩

def isNotFound (s : Status) : Bool := s.code = .notFound
def isOutcomeUnknown (s : Status) : Bool := s.code = .outcomeUnknown

def isEexist (s : Status) : Bool := s.code = .alreadyExists

/-- `ToErrno() == EIO`。専用の errno を持たない code はすべて EIO に写る -/
def isEio (s : Status) : Bool :=
  match s.code with
  | .unavailable | .outcomeUnknown | .endOfDirectory | .malformed | .ioError | .internal => true
  | _ => false

end Status

abbrev Result (α : Type) := Except Status α

namespace Result

variable {α β : Type}

def failIf (c : Prop) [Decidable c] (e : Status) : Result Unit := if c then .error e else .ok ()

variable {e : Status}

@[simp] theorem failIf_ok_iff [Decidable c] : failIf c e = .ok u ↔ ¬ c := by
  unfold failIf
  split <;> simp_all

variable {x : Result α}

@[simp] theorem bind_ok_iff : (x >>= f) = .ok b ↔ ∃ a, x = .ok a ∧ f a = .ok b := by
  cases x with
  | error e => exact ⟨(nomatch ·), fun ⟨_, h, _⟩ => nomatch h⟩
  | ok a => exact ⟨fun h => ⟨a, rfl, h⟩, fun ⟨_, h, hf⟩ => by cases h; exact hf⟩

theorem ite_error_ok_iff [Decidable c] : (if c then .error e else x) = .ok a ↔ ¬ c ∧ x = .ok a := by
  split <;> simp_all

theorem ite_ok_iff [Decidable c] : (if c then x else .error e) = .ok a ↔ c ∧ x = .ok a := by
  split <;> simp_all

theorem failIf_error_iff [Decidable c] : failIf c e = .error e' ↔ c ∧ e = e' := by
  unfold failIf
  split <;> simp_all

theorem bind_error_iff : (x >>= f) = .error e ↔ x = .error e ∨ ∃ a, x = .ok a ∧ f a = .error e := by
  cases x with
  | error e' =>
    constructor
    · intro h
      cases h
      exact .inl rfl
    · rintro (h | ⟨_, h, -⟩) <;> cases h
      rfl
  | ok a =>
    constructor
    · exact fun h => .inr ⟨a, rfl, h⟩
    · rintro (h | ⟨_, ⟨⟩, h⟩)
      · cases h
      · exact h

@[simp] theorem pure_ok_iff : (pure a : Result α) = .ok b ↔ a = b :=
  ⟨fun h => by cases h; rfl, fun h => by rw [h]; rfl⟩

@[simp] theorem map_ok_iff : x.map f = .ok b ↔ ∃ a, x = .ok a ∧ f a = b := by
  cases x with
  | error e => exact ⟨(nomatch ·), fun ⟨_, h, _⟩ => nomatch h⟩
  | ok a => exact ⟨fun h => ⟨a, rfl, by cases h; rfl⟩, fun ⟨_, h, hf⟩ => by cases h; rw [← hf]; rfl⟩

end Result

end SwordFS
