import Mathlib.Data.List.Basic
import Mathlib.Tactic.Common

/-!
# Framed streams

A stream is a sequence of frames, each the encoding of an admissible item. Where
no frame is the beginning of another, the frames at the front of a stream are
determined by the stream, and they can be taken off in any portions.
-/
namespace Library.Framing
variable {β π : Type*} (frame : π → List β) (ok : π → Prop)

/-- `rest` does not begin with a frame. -/
def NoFrame (rest : List β) : Prop := ∀ p r, ok p → rest ≠ frame p ++ r

/-- The frames of `items` are the longest sequence of frames at the front of the
stream, and `rest` is what follows. -/
structure Front (stream : List β) (items : List π) (rest : List β) : Prop where
  split : stream = items.flatMap frame ++ rest
  admissible : ∀ p ∈ items, ok p
  maximal : NoFrame frame ok rest

/-- No frame is the beginning of another. -/
def PrefixFree : Prop := ∀ {p q : π} {r s : List β}, ok p → ok q → frame p ++ r = frame q ++ s → p = q

variable {frame ok}

theorem Front.stuck {rest : List β} (h : NoFrame frame ok rest) : Front frame ok rest [] rest :=
  ⟨rfl, by simp, h⟩

theorem Front.cons {p : π} {stream : List β} {items : List π} {rest : List β} (hp : ok p)
    (h : Front frame ok stream items rest) :
    Front frame ok (frame p ++ stream) (p :: items) rest := by
  refine ⟨?_, ?_, h.maximal⟩
  · rw [h.split, List.flatMap_cons, List.append_assoc]
  · intro q hq
    rcases List.mem_cons.mp hq with rfl | hq
    · exact hp
    · exact h.admissible q hq

/-- Taking frames off as the stream arrives. -/
theorem Front.extend {stream chunk rest rest' : List β} {items items' : List π}
    (h : Front frame ok stream items rest) (h' : Front frame ok (rest ++ chunk) items' rest') :
    Front frame ok (stream ++ chunk) (items ++ items') rest' := by
  refine ⟨?_, ?_, h'.maximal⟩
  · rw [h.split, List.append_assoc, h'.split, List.flatMap_append, List.append_assoc]
  · intro p hp
    rcases List.mem_append.mp hp with hp | hp
    · exact h.admissible p hp
    · exact h'.admissible p hp

theorem Front.tail {p : π} {stream rest : List β} {items : List π}
    (h : Front frame ok stream (p :: items) rest) :
    Front frame ok (items.flatMap frame ++ rest) items rest :=
  ⟨rfl, fun q hq => h.admissible q (by simp [hq]), h.maximal⟩

theorem Front.head {p : π} {stream rest : List β} {items : List π}
    (h : Front frame ok stream (p :: items) rest) :
    ok p ∧ stream = frame p ++ (items.flatMap frame ++ rest) := by
  refine ⟨h.admissible p (by simp), ?_⟩
  rw [h.split, List.flatMap_cons, List.append_assoc]

theorem Front.unique (hfree : PrefixFree frame ok) {stream rest rest' : List β}
    {items items' : List π} (h : Front frame ok stream items rest)
    (h' : Front frame ok stream items' rest') :
    items = items' ∧ rest = rest' := by
  induction items generalizing stream items' with
  | nil =>
    cases items' with
    | nil => exact ⟨rfl, h.split.symm.trans h'.split⟩
    | cons q items' =>
      obtain ⟨hq, hstream⟩ := h'.head
      exact absurd (h.split.symm.trans hstream) (h.maximal q _ hq)
  | cons p items ih =>
    obtain ⟨hp, hstream⟩ := h.head
    cases items' with
    | nil => exact absurd (h'.split.symm.trans hstream) (h'.maximal p _ hp)
    | cons q items' =>
      obtain ⟨hq, hstream'⟩ := h'.head
      have hpq : p = q := hfree hp hq (hstream.symm.trans hstream')
      subst hpq
      have hrest := List.append_cancel_left (hstream.symm.trans hstream')
      have htail := h'.tail
      rw [← hrest] at htail
      obtain ⟨hitems, hlast⟩ := ih h.tail htail
      exact ⟨by rw [hitems], hlast⟩

end Library.Framing
