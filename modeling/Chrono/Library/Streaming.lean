import Chrono.Library.Terminator

/-!
# Streaming parsers

A parser that is handed what has arrived so far answers with a value or asks for
more. The value may say how many symbols it took, counted from the start of the
stream; a parser of a part of the stream begins at an offset.
-/
namespace Library
variable {β α : Type*}

/-- What a streaming parser that begins at `offset` does with `b`: a value is settled by the
symbols that it counts, a value without a count by all of `b`, and where more
symbols are wanted, some complete a value, without one too many. -/
structure StreamingAt (count : α → Option ℕ) (offset : ℕ) (p : List β → Option α) (b : List β) :
    Prop where
  stable : ∀ v, p b = some v → ∀ s, p (b ++ s) = some v
  counted : ∀ v n, p b = some v → count v = some n → offset ≤ n ∧ n ≤ offset + b.length
  settled : ∀ v n, p b = some v → count v = some n → ∀ m, n ≤ offset + m → p (b.take m) = some v
  completes : p b = none → ∃ s v, (∀ t, p (b ++ s ++ t) = some v) ∧
    ∀ n, count v = some n → n = offset + (b ++ s).length

/-- One value, and the rest of the stream handed to a parser that depends on it. A first value
without a count ends the parse. -/
def thenRest {γ : Type*} (first : List β → Option γ) (size : γ → Option ℕ) (stop : γ → α)
    (next : γ → ℕ → List β → Option α) (b : List β) : Option α :=
  (first b).bind fun w =>
    match size w with
    | none => some (stop w)
    | some n => next w n (b.drop n)

namespace StreamingAt
variable {count : α → Option ℕ} {offset : ℕ} {p : List β → Option α} {b : List β}

/-- A value that needs no further symbol. -/
theorem const {v : α} (h : ∀ n, count v = some n → n = offset) :
    StreamingAt count offset (fun _ => some v) b where
  stable _ hv _ := hv
  counted w n hv hn := by
    obtain rfl := Option.some.inj hv
    have := h n hn
    omega
  settled _ _ hv _ _ _ := hv
  completes hv := absurd hv (by simp)

/-- `length` symbols, checked and turned into a value when they are there. -/
theorem payload {length : ℕ} {make : List β → α} (symbol : β)
    (h : ∀ s n, count (make s) = some n → n = offset + length) :
    StreamingAt count offset (fun b => if b.length <
      length then none else some (make (b.take length))) b where
  stable v hv s := by
    split_ifs at hv with hlen
    have hle : length ≤ b.length := Nat.not_lt.mp hlen
    rw [if_neg (by rw [List.length_append]; omega), List.take_append_of_le_length hle]
    exact hv
  counted v n hv hn := by
    split_ifs at hv with hlen
    obtain rfl := Option.some.inj hv
    have := h _ n hn
    omega
  settled v n hv hn m hm := by
    split_ifs at hv with hlen
    obtain rfl := Option.some.inj hv
    have := h _ n hn
    rw [if_neg (by rw [List.length_take]; omega), List.take_take, Nat.min_eq_left (by omega)]
  completes hv := by
    split_ifs at hv with hlen
    have hadd : (b ++ List.replicate (length - b.length) symbol).length = length := by
      rw [List.length_append, List.length_replicate]
      omega
    refine ⟨List.replicate (length - b.length) symbol,
      make (b ++ List.replicate (length - b.length) symbol), ?_, ?_⟩
    · intro t
      rw [if_neg (by rw [List.length_append]; omega), List.take_append_of_le_length (by omega),
        List.take_of_length_le (by omega)]
    · intro n hn
      rw [h _ n hn, hadd]

theorem completes_nil (h : StreamingAt count offset p []) :
    ∃ s v, (∀ t, p (s ++ t) = some v) ∧ ∀ n, count v = some n → n = offset + s.length := by
  cases hv : p [] with
  | none =>
    obtain ⟨s, v, hs, hexact⟩ := h.completes hv
    exact ⟨s, v, hs, hexact⟩
  | some v =>
    refine ⟨[], v, h.stable v hv, fun n hn => ?_⟩
    have := h.counted v n hv hn
    rw [List.length_nil] at this ⊢
    omega

section
variable {γ : Type*} {first : List β → Option γ} {size : γ → Option ℕ} {stop : γ → α}
  {next : γ → ℕ → List β → Option α}

theorem thenRest_stop {w : γ} (hw : first b = some w) (hn : size w = none) :
    thenRest first size stop next b = some (stop w) := by
  simp only [thenRest, hw, Option.bind_some, hn]

theorem thenRest_next {w : γ} {n : ℕ} (hw : first b = some w) (hn : size w = some n) :
    thenRest first size stop next b = next w n (b.drop n) := by
  simp only [thenRest, hw, Option.bind_some, hn]

theorem thenRest_cases {v : α} (hv : thenRest first size stop next b = some v) :
    ∃ w, first b = some w ∧
      (size w = none ∧ v = stop w ∨ ∃ n, size w = some n ∧ next w n (b.drop n) = some v) := by
  obtain ⟨w, hw, -⟩ := Option.bind_eq_some_iff.mp hv
  refine ⟨w, hw, ?_⟩
  cases hn : size w with
  | none =>
    rw [thenRest_stop hw hn] at hv
    exact .inl ⟨rfl, (Option.some.inj hv).symm⟩
  | some n =>
    rw [thenRest_next hw hn] at hv
    exact .inr ⟨n, rfl, hv⟩

/-- A value with a count is one of the second parser. -/
theorem thenRest_counted (hstop : ∀ w, size w = none → count (stop w) = none) {v : α} {k : ℕ}
    (hv : thenRest first size stop next b = some v) (hk : count v = some k) :
    ∃ w n, first b = some w ∧ size w = some n ∧ next w n (b.drop n) = some v := by
  obtain ⟨w, hw, ⟨hn, rfl⟩ | ⟨n, hn, hv⟩⟩ := thenRest_cases hv
  · rw [hstop w hn] at hk
    cases hk
  · exact ⟨w, n, hw, hn, hv⟩

theorem andThen (hfirst : StreamingAt size 0 first b)
    (hstop : ∀ w, size w = none → count (stop w) = none)
    (hnext : ∀ w n, first b = some w → size w = some n →
      StreamingAt count (offset + n) (next w n) (b.drop n))
    (hnil : ∀ w n, size w = some n → StreamingAt count (offset + n) (next w n) []) :
    StreamingAt count offset (thenRest first size stop next) b where
  stable v hv s := by
    obtain ⟨w, hw, ⟨hn, rfl⟩ | ⟨n, hn, hv⟩⟩ := thenRest_cases hv
    · exact thenRest_stop (hfirst.stable w hw s) hn
    · have hle := (hfirst.counted w n hw hn).2
      rw [thenRest_next (hfirst.stable w hw s) hn, List.drop_append_of_le_length (by omega)]
      exact (hnext w n hw hn).stable v hv s
  counted v k hv hk := by
    obtain ⟨w, n, hw, hn, hv⟩ := thenRest_counted hstop hv hk
    have hle := (hfirst.counted w n hw hn).2
    have := (hnext w n hw hn).counted v k hv hk
    rw [List.length_drop] at this
    omega
  settled v k hv hk m hm := by
    obtain ⟨w, n, hw, hn, hv⟩ := thenRest_counted hstop hv hk
    have hlow := ((hnext w n hw hn).counted v k hv hk).1
    rw [thenRest_next (hfirst.settled w n hw hn m (by omega)) hn, List.drop_take]
    exact (hnext w n hw hn).settled v k hv hk (m - n) (by omega)
  completes hv := by
    cases hw : first b with
    | none =>
      -- the symbols that complete the first value, then those that complete the second
      obtain ⟨s, w, hs, hexact⟩ := hfirst.completes hw
      cases hn : size w with
      | none =>
        refine ⟨s, stop w, fun t => thenRest_stop (hs t) hn, fun k hk => ?_⟩
        rw [hstop w hn] at hk
        cases hk
      | some n =>
        have hlen : (b ++ s).length = n := by
          rw [hexact n hn]
          omega
        obtain ⟨s', v, hs', hexact'⟩ := (hnil w n hn).completes_nil
        refine ⟨s ++ s', v, fun t => ?_, fun k hk => ?_⟩
        · have hrest : (b ++ s ++ (s' ++ t)).drop n = s' ++ t := by rw [← hlen, List.drop_left]
          rw [← List.append_assoc, List.append_assoc, thenRest_next (hs (s' ++ t)) hn, hrest]
          exact hs' t
        · have := hexact' k hk
          rw [← List.append_assoc, List.length_append]
          omega
    | some w =>
      cases hn : size w with
      | none =>
        rw [thenRest_stop hw hn] at hv
        cases hv
      | some n =>
        rw [thenRest_next hw hn] at hv
        have hle := (hfirst.counted w n hw hn).2
        obtain ⟨s, v, hs, hexact⟩ := (hnext w n hw hn).completes hv
        refine ⟨s, v, fun t => ?_, fun k hk => ?_⟩
        · rw [List.append_assoc, thenRest_next (hfirst.stable w hw (s ++ t)) hn,
            List.drop_append_of_le_length (by omega), ← List.append_assoc]
          exact hs t
        · have := hexact k hk
          rw [List.length_append, List.length_drop] at this
          rw [List.length_append]
          omega

end

section
variable [DecidableEq β] {x y : β}

/-- A line takes its terminator along. -/
theorem takeLine (hxy : x ≠ y) (b : List β) :
    StreamingAt (fun h => some (h.length + 2)) 0 (fun b => (Terminator.find x y b).map b.take) b where
  stable h hv s := by
    obtain ⟨pos, hpos, rfl⟩ := Option.map_eq_some_iff.mp hv
    have hle := Terminator.find_bound hpos
    rw [Terminator.find_append_some hpos, Option.map_some, List.take_append_of_le_length (by omega)]
  counted h n hv hn := by
    obtain ⟨pos, hpos, rfl⟩ := Option.map_eq_some_iff.mp hv
    have hle := Terminator.find_bound hpos
    rw [Option.some.injEq, List.length_take] at hn
    omega
  settled h n hv hn m hm := by
    obtain ⟨pos, hpos, rfl⟩ := Option.map_eq_some_iff.mp hv
    have hle := Terminator.find_bound hpos
    rw [Option.some.injEq, List.length_take] at hn
    rw [Terminator.find_take hpos (show pos + 2 ≤ m by omega), Option.map_some, List.take_take,
      Nat.min_eq_left (by omega)]
  completes hv := by
    have hpos := Option.map_eq_none_iff.mp hv
    refine ⟨[x, y], b, fun t => ?_, fun n hn => ?_⟩
    · rw [Terminator.find_append hxy hpos, Option.map_some, List.append_assoc, List.take_left]
    · rw [List.length_append]
      exact (Option.some.inj hn).symm.trans (Nat.zero_add _).symm

/-- A line, and the rest of the stream handed to a parser that depends on it. -/
theorem line {body : List β → List β → Option α} (hxy : x ≠ y)
    (hbody : ∀ h r, r = [] ∨ r.length < b.length → StreamingAt count (h.length + 2) (body h) r) :
    StreamingAt count 0 (fun b => (Terminator.find x y b).bind fun pos =>
      body (b.take pos) (b.drop (pos + 2))) b := by
  obtain ⟨-, v, -⟩ := (hbody [] [] (.inl rfl)).completes_nil
  have hline : (fun b => (Terminator.find x y b).bind fun pos =>
      body (b.take pos) (b.drop (pos + 2))) =
      thenRest (fun b => (Terminator.find x y b).map b.take) (fun h => some (h.length + 2)) (fun _ => v)
        (fun h _ r => body h r) := by
    ext1 b
    cases hpos : Terminator.find x y b with
    | none => simp only [thenRest, hpos, Option.map_none, Option.bind_none]
    | some pos =>
      have hle := Terminator.find_bound hpos
      have hlen : (b.take pos).length = pos := List.length_take_of_le (by omega)
      simp only [thenRest, hpos, Option.map_some, Option.bind_some, hlen]
  rw [hline]
  apply andThen (takeLine hxy b)
  · intro h hn
    cases hn
  · intro h n hw hn
    obtain ⟨pos, hpos, rfl⟩ := Option.map_eq_some_iff.mp hw
    obtain rfl := Option.some.inj hn
    have hle := Terminator.find_bound hpos
    rw [Nat.zero_add]
    refine hbody _ _ (.inr ?_)
    rw [List.length_drop]
    omega
  · intro h n hn
    obtain rfl := Option.some.inj hn
    rw [Nat.zero_add]
    exact hbody h [] (.inl rfl)

end

theorem positive (h : StreamingAt count 0 p b) (hnil : p [] = none) {v : α} {n : ℕ}
    (hv : p b = some v) (hn : count v = some n) : 0 < n := by
  rcases Nat.eq_zero_or_pos n with rfl | hpos
  · have hsettled := h.settled v 0 hv hn 0 (Nat.le_refl _)
    rw [List.take_zero, hnil] at hsettled
    cases hsettled
  · exact hpos

/-- Another description of the parser, on the streams that begin as `b` does. -/
theorem congr_head {q : List β → Option α} (h : StreamingAt count 0 p b)
    (hpos : ∀ v n, p b = some v → count v = some n → 0 < n) (hb : b ≠ [])
    (heq : ∀ b', b'.head? = b.head? → q b' = p b') : StreamingAt count 0 q b where
  stable v hv s := by
    have hhead : (b ++ s).head? = b.head? := List.head?_append_of_ne_nil b hb
    rw [heq _ hhead]
    exact h.stable v (by rwa [heq b rfl] at hv) s
  counted v n hv hn := h.counted v n (by rwa [heq b rfl] at hv) hn
  settled v n hv hn m hm := by
    rw [heq b rfl] at hv
    have hn0 := hpos v n hv hn
    have hhead : (b.take m).head? = b.head? := by
      rw [List.head?_take, if_neg (by omega)]
    rw [heq _ hhead]
    exact h.settled v n hv hn m hm
  completes hv := by
    obtain ⟨s, v, hs, hexact⟩ := h.completes (by rwa [heq b rfl] at hv)
    refine ⟨s, v, fun t => ?_, hexact⟩
    rw [List.append_assoc]
    have hhead : (b ++ (s ++ t)).head? = b.head? := List.head?_append_of_ne_nil b hb
    rw [heq _ hhead, ← List.append_assoc]
    exact hs t

/-- Where a parser streams on every input, no shorter input gives the value. -/
theorem shorter (h : ∀ b, StreamingAt count 0 p b) {v : α} {n : ℕ} (hv : p b = some v)
    (hn : count v = some n) {m : ℕ} (hm : m < n) : p (b.take m) = none := by
  cases hw : p (b.take m) with
  | none => rfl
  | some w =>
    have hwhole := (h (b.take m)).stable w hw (b.drop m)
    rw [List.take_append_drop, hv] at hwhole
    obtain rfl := Option.some.inj hwhole
    have hle := ((h (b.take m)).counted v n hw hn).2
    rw [List.length_take] at hle
    omega

end StreamingAt
end Library
