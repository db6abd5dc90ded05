import Mathlib.Data.List.GetD
import Mathlib.Tactic.Ring

/-!
# Operations that can fault

A result, an error that the program reports, or a fault: an index out of range, a
shift by the width of the word or more, an integer that does not fit its type, a
vector whose bytes cannot be counted, a loop that goes on beyond its bound.

`Outcome.Agrees` says that a guarded computation has no fault and does what a plain one
does, and what holds of the result; `Outcome.Tracks` relates the two results.
-/

namespace RustFits

inductive Outcome (ε α : Type) where
  | ok (a : α)
  | error (e : ε)
  | fault
  deriving DecidableEq, Repr

namespace Outcome

variable {ε α β : Type}

protected def bind (x : Outcome ε α) (f : α → Outcome ε β) : Outcome ε β :=
  match x with
  | .ok a => f a
  | .error e => .error e
  | .fault => .fault

instance : Monad (Outcome ε) where
  pure := .ok
  bind := Outcome.bind

@[simp] theorem ok_bind (a : α) (f : α → Outcome ε β) : ((.ok a : Outcome ε α) >>= f) = f a := rfl

@[simp] theorem error_bind (e : ε) (f : α → Outcome ε β) :
    ((.error e : Outcome ε α) >>= f) = .error e := rfl

@[simp] theorem fault_bind (f : α → Outcome ε β) : ((.fault : Outcome ε α) >>= f) = .fault := rfl

instance : LawfulMonad (Outcome ε) :=
  LawfulMonad.mk' (Outcome ε) (fun x => by cases x <;> rfl) (fun _ _ => rfl)
    (fun x _ _ => by cases x <;> rfl)

/-- A plain computation, which has no faults. -/
def ofExcept : Except ε α → Outcome ε α
  | .ok a => .ok a
  | .error e => .error e

@[simp] theorem ofExcept_ok (a : α) : ofExcept (.ok a : Except ε α) = .ok a := rfl

@[simp] theorem ofExcept_error (e : ε) : ofExcept (.error e : Except ε α) = .error e := rfl

/-- A guarded computation does what a plain one does, with a result that has `P`. -/
structure Agrees (P : α → Prop) (x : Outcome ε α) (y : Except ε α) : Prop where
  eq : x = ofExcept y
  post : ∀ a, y = .ok a → P a

theorem Agrees.ok {P : α → Prop} {a : α} (h : P a) : Agrees P (.ok a : Outcome ε α) (.ok a) :=
  ⟨rfl, fun _ hb => Except.ok.inj hb ▸ h⟩

theorem Agrees.error {P : α → Prop} (e : ε) : Agrees P (.error e : Outcome ε α) (.error e) :=
  ⟨rfl, fun _ hb => nomatch hb⟩

theorem Agrees.mono {P Q : α → Prop} {x : Outcome ε α} {y : Except ε α} (h : Agrees P x y)
    (hpq : ∀ a, P a → Q a) : Agrees Q x y :=
  ⟨h.eq, fun a ha => hpq a (h.post a ha)⟩

/-- A guarded computation fails where a plain one does, and its result is related to
that of the plain one. -/
def Tracks (R : α → β → Prop) (x : Outcome ε α) (y : Except ε β) : Prop :=
  match y with
  | .error e => x = .error e
  | .ok b => ∃ a, x = .ok a ∧ R a b

theorem Tracks.of_ok {R : α → β → Prop} {x : Outcome ε α} {y : Except ε β} {b : β}
    (h : Tracks R x y) (hy : y = .ok b) : ∃ a, x = .ok a ∧ R a b := by
  rw [hy] at h
  exact h

theorem Tracks.of_error {R : α → β → Prop} {x : Outcome ε α} {y : Except ε β} {e : ε}
    (h : Tracks R x y) (hy : y = .error e) : x = .error e := by
  rw [hy] at h
  exact h

/-- An error of the program, or a list of that length: no fault. -/
def ErrorOrSize (size : Nat) (x : Outcome ε (List α)) : Prop :=
  match x with
  | .ok out => out.length = size
  | .error _ => True
  | .fault => False

theorem Agrees.errorOrSize {size : Nat} {x : Outcome ε (List α)} {y : Except ε (List α)}
    (h : Agrees (fun out => out.length = size) x y) : ErrorOrSize size x := by
  rw [h.eq]
  cases y with
  | error e => trivial
  | ok out => exact h.post out rfl

/-- No fault, and a result that has `P`. -/
def Guarantees (P : α → Prop) (x : Outcome ε α) : Prop :=
  match x with
  | .ok a => P a
  | .error _ => True
  | .fault => False

theorem Guarantees.bind {P : α → Prop} {Q : β → Prop} {x : Outcome ε α} {f : α → Outcome ε β}
    (h : Guarantees P x) (hnext : ∀ a, P a → Guarantees Q (f a)) : Guarantees Q (x >>= f) := by
  cases x with
  | ok a => exact hnext a h
  | error e => trivial
  | fault => exact h.elim

theorem Guarantees.ofExcept {P : α → Prop} {y : Except ε α} (h : ∀ a, y = .ok a → P a) :
    Guarantees P (Outcome.ofExcept y) := by
  cases y with
  | ok a => exact h a rfl
  | error e => trivial

/-! ## Guarded operations -/

/-- The sum of two words of `w` bits. -/
def addWord (w a b : Nat) : Outcome ε Nat := if a + b < 2 ^ w then .ok (a + b) else .fault

/-- The product of two words of `w` bits. -/
def mulWord (w a b : Nat) : Outcome ε Nat := if a * b < 2 ^ w then .ok (a * b) else .fault

/-- The difference of two unsigned words. -/
def subWord (a b : Nat) : Outcome ε Nat := if b ≤ a then .ok (a - b) else .fault

def shiftLeft (w a n : Nat) : Outcome ε Nat := if n < w then .ok (a * 2 ^ n % 2 ^ w) else .fault

def shiftRight (w a n : Nat) : Outcome ε Nat := if n < w then .ok (a / 2 ^ n) else .fault

/-- An integer that has to fit a signed word of `w + 1` bits. -/
def signed (w : Nat) (v : Int) : Outcome ε Int := if -(2 ^ w) ≤ v ∧ v < 2 ^ w then .ok v else .fault

def getAt (l : List α) (i : Nat) : Outcome ε α :=
  match l[i]? with
  | some a => .ok a
  | none => .fault

def setAt (l : List α) (i : Nat) (a : α) : Outcome ε (List α) :=
  if i < l.length then .ok (l.set i a) else .fault

/-- Copy values over a slice. -/
def putAt (l : List α) (i : Nat) (values : List α) : Outcome ε (List α) :=
  if i + values.length ≤ l.length then
    .ok (l.take i ++ values ++ l.drop (i + values.length)) else .fault

/-- A slice of a list. -/
def getRange (l : List α) (start stop : Nat) : Outcome ε (List α) :=
  if start ≤ stop ∧ stop ≤ l.length then .ok ((l.drop start).take (stop - start)) else .fault

/-- A slice of a list takes new values: the length of a slice does not change. -/
def putRange (l : List α) (start stop : Nat) (values : List α) : Outcome ε (List α) :=
  if start ≤ stop ∧ stop ≤ l.length ∧ values.length = stop - start then
    .ok (l.take start ++ values ++ l.drop stop)
  else .fault

/-- The largest size of a vector in bytes. -/
def isizeMax : Nat := 9223372036854775807

/-- Room for `count` elements of `size` bytes. -/
def allocate (count size : Nat) : Outcome ε Unit :=
  if count * size ≤ isizeMax then .ok () else .fault

theorem addWord_of_lt {w a b : Nat} (h : a + b < 2 ^ w) :
    (addWord w a b : Outcome ε Nat) = .ok (a + b) :=
  if_pos h

theorem mulWord_of_lt {w a b : Nat} (h : a * b < 2 ^ w) :
    (mulWord w a b : Outcome ε Nat) = .ok (a * b) :=
  if_pos h

theorem subWord_of_le {a b : Nat} (h : b ≤ a) : (subWord a b : Outcome ε Nat) = .ok (a - b) :=
  if_pos h

theorem shiftLeft_of_lt {w n : Nat} (h : n < w) (a : Nat) :
    (shiftLeft w a n : Outcome ε Nat) = .ok (a * 2 ^ n % 2 ^ w) := if_pos h

theorem shiftRight_of_lt {w n : Nat} (h : n < w) (a : Nat) :
    (shiftRight w a n : Outcome ε Nat) = .ok (a / 2 ^ n) := if_pos h

theorem signed_of_range {w : Nat} {v : Int} (h : -(2 ^ w) ≤ v ∧ v < 2 ^ w) :
    (signed w v : Outcome ε Int) = .ok v := if_pos h

theorem getAt_of_lt {l : List α} {i : Nat} (h : i < l.length) (d : α) :
    (getAt l i : Outcome ε α) = .ok (l.getD i d) := by
  rw [getAt, List.getElem?_eq_getElem h, List.getD_eq_getElem l d h]

theorem setAt_of_lt {l : List α} {i : Nat} (h : i < l.length) (a : α) :
    (setAt l i a : Outcome ε (List α)) = .ok (l.set i a) := if_pos h

theorem putAt_of_le {l values : List α} {i : Nat} (h : i + values.length ≤ l.length) :
    (putAt l i values : Outcome ε (List α)) =
      .ok (l.take i ++ values ++ l.drop (i + values.length)) :=
  if_pos h

theorem getRange_of_le {l : List α} {start stop : Nat} (h : start ≤ stop)
    (hstop : stop ≤ l.length) :
    (getRange l start stop : Outcome ε (List α)) = .ok ((l.drop start).take (stop - start)) :=
  if_pos ⟨h, hstop⟩

theorem putRange_of_le {l values : List α} {start stop : Nat} (h : start ≤ stop)
    (hstop : stop ≤ l.length) (hlen : values.length = stop - start) :
    (putRange l start stop values : Outcome ε (List α)) =
      .ok (l.take start ++ values ++ l.drop stop) :=
  if_pos ⟨h, hstop, hlen⟩

theorem allocate_of_le {count size : Nat} (h : count * size ≤ isizeMax) :
    (allocate count size : Outcome ε Unit) = .ok () := if_pos h

theorem allocate_of_gt {count size : Nat} (h : isizeMax < count * size) :
    (allocate count size : Outcome ε Unit) = .fault := if_neg (Nat.not_le.2 h)

end Outcome

end RustFits
