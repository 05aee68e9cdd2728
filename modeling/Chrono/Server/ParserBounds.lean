import Mathlib.Algebra.GroupWithZero.Nat
import Chrono.Server.RespParser

/-!
# How far the RESP parser reads

The recursive calls of one call are recorded with the views they are made on. Each
of these views is shorter than the buffer, and every element that is read moves
the loop of `parse_array` on by three bytes at least.
-/
namespace Chrono
namespace RespParser

def parseElementsTraced (parse : Bytes → Except Fault (Option RespValue)) (buf : Bytes) :
    ℕ → ℕ → List RespValue → List Bytes × Except Fault (Option RespValue)
  | 0, currPos, elements => ([], return some (.arrayFromParts elements currPos))
  | n + 1, currPos, elements =>
    match substr buf currPos buf.length with
    | .error e => ([], .error e)
    | .ok view =>
      match parse view with
      | .error e => ([view], .error e)
      | .ok none => ([view], return none)
      | .ok (some v) =>
        match v.numRespBytes with
        | none => ([view], return some (.error (lit "ERR invalid array element") none))
        | some count =>
          let (views, answer) := parseElementsTraced parse buf n (currPos + count) (elements ++ [v])
          (view :: views, answer)

def parseArrayTraced (parse : Bytes → Except Fault (Option RespValue)) (buf : Bytes) :
    List Bytes × Except Fault (Option RespValue) :=
  let invalid := RespValue.error (lit "ERR invalid array format") none
  match byteAt buf 0 with
  | .error e => ([], .error e)
  | .ok typeByte =>
    if typeByte ≠ 0x2A then ([], return some invalid)
    else
      match findCrlf buf with
      | none => ([], return none)
      | some pos =>
        match substr buf 1 (pos - 1) with
        | .error e => ([], .error e)
        | .ok digits =>
          match parseStringAsInt digits with
          | none => ([], return some invalid)
          | some numElements =>
            if numElements = -1 then ([], return some (.nullArray (pos + 2)))
            else if numElements < 0 then ([], return some invalid)
            else parseElementsTraced parse buf numElements.toNat (pos + 2) []

/-- `RespParser::parse`, with the views of its recursive calls; `parse_array` alone makes any. -/
def parseTraced (buf : Bytes) : List Bytes × Except Fault (Option RespValue) :=
  if buf.head? = some 0x2A then parseArrayTraced parse buf else ([], parseBody parse buf)

/-! ## Recording changes nothing -/

@[simp] theorem parseElementsTraced_snd (p : Bytes → Except Fault (Option RespValue)) (buf : Bytes)
    (n currPos : ℕ) (elements : List RespValue) :
    (parseElementsTraced p buf n currPos elements).2 = parseElements p buf n currPos elements := by
  induction n generalizing currPos elements with
  | zero => rfl
  | succ n ih =>
    simp only [parseElementsTraced, parseElements, bind, Except.bind]
    cases substr buf currPos buf.length with
    | error e => rfl
    | ok view =>
      dsimp only
      cases p view with
      | error e => rfl
      | ok o =>
        cases o with
        | none => rfl
        | some v =>
          dsimp only
          cases v.numRespBytes with
          | none => rfl
          | some count => exact ih _ _

@[simp] theorem parseArrayTraced_snd (p : Bytes → Except Fault (Option RespValue)) (buf : Bytes) :
    (parseArrayTraced p buf).2 = parseArray p buf := by
  simp only [parseArrayTraced, parseArray, bind, Except.bind]
  cases byteAt buf 0 with
  | error e => rfl
  | ok typeByte =>
    by_cases hb : typeByte = 0x2A
    · simp only [hb, ne_eq, not_true_eq_false, if_false]
      cases findCrlf buf with
      | none => rfl
      | some pos =>
        dsimp only
        cases substr buf 1 (pos - 1) with
        | error e => rfl
        | ok digits =>
          dsimp only
          cases parseStringAsInt digits with
          | none => rfl
          | some numElements =>
            dsimp only
            split_ifs
            · rfl
            · rfl
            · exact parseElementsTraced_snd _ _ _ _ _
    · simp only [hb, ne_eq, not_false_eq_true, if_true]

theorem parseTraced_snd (buf : Bytes) : (parseTraced buf).2 = parse buf := by
  rw [parse_eq, parseTraced]
  split_ifs with hstar
  · obtain ⟨buf, rfl⟩ := List.head?_eq_some_iff.mp hstar
    exact parseArrayTraced_snd _ _
  · rfl

/-! ## The loop of `parse_array` -/

/-- One call for each three bytes at most, on shorter views. -/
theorem parseElementsTraced_views {buf : Bytes} (n : ℕ) {currPos : ℕ} (hlo : 3 ≤ currPos)
    (hhi : currPos ≤ buf.length) (elements : List RespValue) :
    (∀ view ∈ (parseElementsTraced parse buf n currPos elements).1, view.length < buf.length) ∧
      currPos + 3 * (parseElementsTraced parse buf n currPos elements).1.length ≤ buf.length + 3 := by
  induction n generalizing currPos elements with
  | zero =>
    exact ⟨by simp [parseElementsTraced], by simp only [parseElementsTraced, List.length_nil]; omega⟩
  | succ n ih =>
    have hview : (buf.drop currPos).length < buf.length := by
      rw [List.length_drop]
      omega
    have hlast : (∀ view ∈ [buf.drop currPos], view.length < buf.length) ∧
        currPos + 3 * [buf.drop currPos].length ≤ buf.length + 3 :=
      ⟨by simpa using hview, by simpa using hhi⟩
    obtain ⟨o, ho, hread⟩ := within_parse (buf.drop currPos)
    simp only [parseElementsTraced, substr_rest hhi, ho]
    cases o with
    | none => exact hlast
    | some v =>
      dsimp only
      cases hv : v.numRespBytes with
      | none => exact hlast
      | some count =>
        obtain ⟨hthree, hcount, -⟩ := (hread v rfl).count count hv
        rw [List.length_drop] at hcount
        obtain ⟨hviews, hlength⟩ := @ih (currPos + count) (by omega) (by omega) (elements ++ [v])
        constructor
        · intro view hmem
          rcases List.mem_cons.mp hmem with rfl | hmem
          · exact hview
          · exact hviews view hmem
        · simp only [List.length_cons]
          omega

/-- The values are counted with `counts`, each of at least three bytes. -/
def Counted (values : List RespValue) (counts : List ℕ) : Prop :=
  List.Forall₂ (fun v n => v.numRespBytes = some n ∧ 3 ≤ n) values counts

theorem Counted.three_mul_length {values : List RespValue} {counts : List ℕ}
    (h : Counted values counts) :
    3 * values.length ≤ counts.sum := by
  induction h with
  | nil => simp
  | cons hhead _ ih =>
    simp only [List.length_cons, List.sum_cons]
    omega

theorem Counted.map_numRespBytes {values : List RespValue} {counts : List ℕ}
    (h : Counted values counts) :
    values.map RespValue.numRespBytes = counts.map some := by
  induction h with
  | nil => rfl
  | cons hhead _ ih => rw [List.map_cons, List.map_cons, hhead.1, ih]

/-- The elements that the loop adds move it on by their counts. -/
theorem parseElements_counted {buf : Bytes} (n : ℕ) {currPos : ℕ} (hhi : currPos ≤ buf.length)
    {elements : List RespValue} {v : RespValue}
    (h : parseElements parse buf n currPos elements = .ok (some v))
    (harray : v.type = .array) :
    ∃ more counts, v.array = elements ++ more ∧ Counted more counts ∧
      v.numRespBytes = some (currPos + counts.sum) := by
  induction n generalizing currPos elements with
  | zero =>
    cases h
    exact ⟨[], [], by simp [RespValue.arrayFromParts, RespValue.array], .nil, rfl⟩
  | succ n ih =>
    obtain ⟨o, ho, hread⟩ := within_parse (buf.drop currPos)
    cases o with
    | none =>
      rw [parseElements_incomplete n elements hhi ho] at h
      cases h
    | some e =>
      cases he : e.numRespBytes with
      | none =>
        rw [parseElements_unset n elements hhi ho he] at h
        cases h
        cases harray
      | some count =>
        obtain ⟨hthree, hcount, -⟩ := (hread e rfl).count count he
        rw [List.length_drop] at hcount
        rw [parseElements_next n elements hhi ho he] at h
        obtain ⟨more, counts, hmore, hcounted, hn⟩ := ih (by omega) h
        refine ⟨e :: more, count :: counts, ?_, .cons ⟨he, hthree⟩ hcounted, ?_⟩
        · rw [hmore, List.append_assoc, List.singleton_append]
        · rw [hn, List.sum_cons, Nat.add_assoc]

/-! ## The parser -/

theorem parseLine_type {typeByte : UInt8} {invalid : Bytes} {make : Bytes → ℕ → RespValue}
    (hmake : ∀ s n, (make s n).type ≠ .array) {buf : Bytes} {v : RespValue}
    (h : parseLine typeByte invalid make (typeByte :: buf) = .ok (some v)) : v.type ≠ .array := by
  rw [parseLine_cons] at h
  obtain ⟨pos, -, rfl⟩ := Option.map_eq_some_iff.mp (Except.ok.inj h)
  exact hmake _ _

theorem parseInteger_type {buf : Bytes} {v : RespValue}
    (h : parseInteger (0x3A :: buf) = .ok (some v)) :
    v.type ≠ .array := by
  rw [parseInteger_cons] at h
  split_ifs at h
  · cases h
  obtain ⟨pos, -, rfl⟩ := Option.map_eq_some_iff.mp (Except.ok.inj h)
  cases parseStringAsInt (buf.take (pos - 1)) <;> simp [RespValue.error, RespValue.integer, RespValue.type]

theorem parseBulkString_type {buf : Bytes} {v : RespValue}
    (h : parseBulkString (0x24 :: buf) = .ok (some v)) :
    v.type ≠ .array := by
  rw [parseBulkString_cons] at h
  split at h
  · cases h
  · split at h
    · cases h
      simp [RespValue.error, RespValue.type]
    · unfold bulkPayload at h
      dsimp only at h
      split_ifs at h <;> cases h <;>
        simp [RespValue.error, RespValue.nullBulk, RespValue.bulkString, RespValue.type]

/-- `parse_array` makes the values of this type, and its view begins with `*`. -/
theorem parse_array {b : Bytes} {v : RespValue} (h : parse b = .ok (some v))
    (harray : v.type = .array) :
    ∃ buf, b = 0x2A :: buf ∧ parseArray parse b = .ok (some v) := by
  rw [parse_eq] at h
  cases b with
  | nil => cases h
  | cons typeByte buf =>
    rw [parseBody] at h
    split_ifs at h with hplus hminus hcolon hdollar hstar
    · rw [hplus] at h
      exact absurd harray (parseLine_type
        (fun _ _ => by simp [RespValue.simpleString, RespValue.type]) h)
    · rw [hminus] at h
      exact absurd harray (parseLine_type (fun _ _ => by simp [RespValue.error, RespValue.type]) h)
    · rw [hcolon] at h
      exact absurd harray (parseInteger_type h)
    · rw [hdollar] at h
      exact absurd harray (parseBulkString_type h)
    · exact ⟨buf, by rw [hstar], h⟩
    · cases h
      cases harray

theorem parse_array_counted {b : Bytes} {v : RespValue} (h : parse b = .ok (some v))
    (harray : v.type = .array) :
    ∃ pos counts, findCrlf b = some pos ∧ Counted v.array counts ∧
      v.numRespBytes = some (pos + 2 + counts.sum) := by
  obtain ⟨buf, rfl, hparse⟩ := parse_array h harray
  rw [parseArray_cons] at hparse
  cases hpos : findCrlf (0x2A :: buf) with
  | none =>
    rw [hpos] at hparse
    cases hparse
  | some pos =>
    rw [hpos] at hparse
    dsimp only at hparse
    split at hparse
    · cases hparse
      cases harray
    · split_ifs at hparse
      · cases hparse
        exact ⟨pos, [], rfl, .nil, rfl⟩
      · cases hparse
        cases harray
      · obtain ⟨more, counts, hmore, hcounted, hn⟩ :=
          parseElements_counted _ (findCrlf_bound hpos) hparse harray
        rw [List.nil_append] at hmore
        exact ⟨pos, counts, rfl, hmore ▸ hcounted, hn⟩

theorem parseTraced_views (b : Bytes) :
    (∀ view ∈ (parseTraced b).1, view.length < b.length) ∧
    3 * (parseTraced b).1.length ≤ b.length := by
  have hnone (answer : Except Fault (Option RespValue)) :
      (∀ view ∈ (([], answer) : List Bytes × Except Fault (Option RespValue)).1,
        view.length < b.length) ∧
        3 * (([], answer) : List Bytes × Except Fault (Option RespValue)).1.length ≤ b.length := by
    simp
  rw [parseTraced]
  split_ifs with hstar
  · obtain ⟨buf, rfl⟩ := List.head?_eq_some_iff.mp hstar
    simp only [parseArrayTraced, byteAt_cons_zero, ne_eq, not_true_eq_false, if_false,
      substr_cons_one]
    cases hpos : findCrlf (0x2A :: buf) with
    | none => exact hnone _
    | some pos =>
      have hthree : 3 ≤ pos + 2 := by
        have := findCrlf_pos (by decide) hpos
        omega
      dsimp only
      split
      · exact hnone _
      · split_ifs
        · exact hnone _
        · exact hnone _
        · obtain ⟨hviews, hlength⟩ := parseElementsTraced_views _ hthree (findCrlf_bound hpos) []
          exact ⟨hviews, by omega⟩
  · exact hnone _

/-- For every buffer: `parse` returns, so that no offset or index is out of range and no
recursion without end; a count that is set is at least 3 and at most the length of
the buffer; an array counts its header and its elements, each with its count set; and
whatever number of elements is declared, the recursive calls are on strictly
shorter views and at most a third as many as there are bytes. -/
theorem parse_bounds (b : Bytes) :
    (∃ o, parse b = .ok o) ∧
      (∀ v, parse b = .ok (some v) →
        (∀ n, v.numRespBytes = some n → 3 ≤ n ∧ n ≤ b.length) ∧
        (v.type = .array → ∃ (pos : ℕ) (counts : List ℕ), findCrlf b = some pos ∧
          v.array.map RespValue.numRespBytes = counts.map some ∧
          v.numRespBytes = some (pos + 2 + counts.sum) ∧
          v.array.length ≤ b.length / 3)) ∧
      (parseTraced b).2 = parse b ∧ (∀ view ∈ (parseTraced b).1, view.length < b.length) ∧
      (parseTraced b).1.length ≤ b.length / 3 := by
  obtain ⟨o, ho, hread⟩ := within_parse b
  obtain ⟨hviews, hlength⟩ := parseTraced_views b
  refine ⟨⟨o, ho⟩, ?_, parseTraced_snd b, hviews, by omega⟩
  intro v hv
  have hcount := (hread v (by rw [ho] at hv; exact Except.ok.inj hv)).count
  refine ⟨fun n hn => ⟨(hcount n hn).1, (hcount n hn).2.1⟩, ?_⟩
  intro harray
  obtain ⟨pos, counts, hpos, hcounted, hn⟩ := parse_array_counted hv harray
  refine ⟨pos, counts, hpos, hcounted.map_numRespBytes, hn, ?_⟩
  have hthird := hcounted.three_mul_length
  have hle := (hcount _ hn).2.1
  omega

end RespParser
end Chrono
