import Chrono.Server.Connection

/-!
# What `try_one_request` reads of its buffer

Every element of `incoming` that a call touches is recorded, with the 32-bit sums
it takes and the bytes it removes. The loop of `handle_read` and whole sequences
of reads are recorded in the same way.
-/
namespace Chrono
open Library.Framing
namespace Connection

/-- A step of `try_one_request` that has to stay within bounds. -/
inductive Access where
  /-- `incoming[index]`, where `incoming.size()` is `size`. -/
  | element (index size : ℕ)
  /-- A sum in 32 bits. -/
  | sum (a b : UInt32)
  /-- `buf_consume` of `n` bytes, where `incoming.size()` is `size`. -/
  | consume (n size : ℕ)
deriving DecidableEq, Repr

def Access.InBounds : Access → Prop
  | .element index size => index < size
  | .sum a b => a.toNat + b.toNat < 2 ^ 32
  | .consume n size => n ≤ size

instance : DecidablePred Access.InBounds
  | .element _ _ => inferInstanceAs (Decidable (_ < _))
  | .sum _ _ => inferInstanceAs (Decidable (_ < _))
  | .consume _ _ => inferInstanceAs (Decidable (_ ≤ _))

def memcpy (start n size : ℕ) : List Access :=
  (List.range n).map (fun i => .element (start + i) size)

/-- `try_one_request`, with its accesses in order. -/
def tryOneRequestTraced (c : Connection) : List Access × ReadResponse × Connection :=
  let size := c.incoming.length
  if size < 4 then ([], ⟨false, none⟩, c)
  else
    let len := ntohl c.incoming
    if kMaxMsg < len.toNat then (memcpy 0 4 size, ⟨false, none⟩, { c with wantClose := true })
    else if size < (4 + len).toNat then (memcpy 0 4 size ++ [.sum 4 len], ⟨false, none⟩, c)
    else
      -- `&incoming[4]` is taken before `len` is looked at
      (memcpy 0 4 size ++ [.sum 4 len, .element 4 size] ++ memcpy 4 len.toNat size ++
          [.sum 4 len, .consume (4 + len).toNat size],
        ⟨true, some ((c.incoming.drop 4).take len.toNat)⟩,
        { c with incoming := c.incoming.drop (4 + len).toNat })

def drainTraced : ℕ → Connection → List Access × Except Fault (List ReadResponse × Connection)
  | 0, _ => ([], .error .undefined)
  | fuel + 1, c =>
    let (accesses, response, c) := c.tryOneRequestTraced
    if !response.success || response.data.isNone then (accesses, .ok ([], c))
    else
      let (later, answer) := drainTraced fuel c
      (accesses ++ later, answer.map (fun r => (response :: r.1, r.2)))

def handleReadTraced (c : Connection) :
    ReadResult → List Access × Except Fault (List ReadResponse × Connection)
  | .again => ([], .ok ([], c))
  | .eof => ([], .ok ([], { c with wantClose := true }))
  | .error => ([], .ok ([], { c with wantClose := true }))
  | .data head tail =>
    let incoming := c.incoming ++ head :: tail
    drainTraced (incoming.length + 1) { c with incoming }

def handleReadsTraced (c : Connection) :
    List ReadResult → List Access × Except Fault (List Bytes × Connection)
  | [] => ([], .ok ([], c))
  | r :: reads =>
    match c.handleReadTraced r with
    | (accesses, .error e) => (accesses, .error e)
    | (accesses, .ok (responses, c)) =>
      let (later, answer) := handleReadsTraced c reads
      (accesses ++ later, answer.map (fun r => (responses.filterMap ReadResponse.data ++ r.1, r.2)))

/-! ## Recording changes nothing -/

@[simp] theorem tryOneRequestTraced_snd (c : Connection) :
    c.tryOneRequestTraced.2 = c.tryOneRequest := by
  unfold tryOneRequestTraced tryOneRequest
  dsimp only
  split_ifs <;> rfl

@[simp] theorem drainTraced_snd (fuel : ℕ) (c : Connection) :
    (drainTraced fuel c).2 = drain fuel c := by
  induction fuel generalizing c with
  | zero => rfl
  | succ fuel ih =>
    rw [drainTraced, drain, ← tryOneRequestTraced_snd]
    generalize c.tryOneRequestTraced = call
    obtain ⟨accesses, response, c'⟩ := call
    by_cases hstop : (!response.success || response.data.isNone) = true
    · simp [hstop]
    · simp [hstop, ih]

@[simp] theorem handleReadTraced_snd (c : Connection) (r : ReadResult) :
    (c.handleReadTraced r).2 = c.handleRead r := by
  cases r with
  | again => rfl
  | eof => rfl
  | error => rfl
  | data head tail => exact drainTraced_snd _ _

@[simp] theorem handleReadsTraced_snd (c : Connection) (reads : List ReadResult) :
    (c.handleReadsTraced reads).2 = c.handleReads reads := by
  induction reads generalizing c with
  | nil => rfl
  | cons r reads ih =>
    rw [handleReadsTraced, handleReads, ← handleReadTraced_snd]
    generalize c.handleReadTraced r = call
    obtain ⟨accesses, answer⟩ := call
    cases answer with
    | error e => rfl
    | ok answer => simp [ih]

/-! ## Bounds -/

def AllInBounds (accesses : List Access) : Prop := ∀ a ∈ accesses, a.InBounds

instance (accesses : List Access) : Decidable (AllInBounds accesses) :=
  inferInstanceAs (Decidable (∀ a ∈ accesses, a.InBounds))

@[simp] theorem allInBounds_nil : AllInBounds [] := by simp [AllInBounds]

@[simp] theorem allInBounds_append (l m : List Access) :
    AllInBounds (l ++ m) ↔ AllInBounds l ∧ AllInBounds m := by
  simp [AllInBounds, or_imp, forall_and]

@[simp] theorem allInBounds_cons (a : Access) (l : List Access) :
    AllInBounds (a :: l) ↔ a.InBounds ∧ AllInBounds l := by
  simp [AllInBounds]

def EndsInEmptyFrame (stream : Bytes) : Prop :=
  ∃ payloads : List Bytes, (∀ p ∈ payloads, Fits p) ∧ stream = payloads.flatMap frame ++ frame []

theorem allInBounds_memcpy {start n size : ℕ} :
    AllInBounds (memcpy start n size) ↔ n = 0 ∨ start + n ≤ size := by
  simp only [AllInBounds, memcpy, List.mem_map, List.mem_range, forall_exists_index, and_imp,
    forall_apply_eq_imp_iff₂, Access.InBounds]
  constructor
  · intro h
    by_cases hn : n = 0
    · exact .inl hn
    · have hlast := h (n - 1) (by omega)
      omega
  · intro h i hi
    omega

theorem frame_nil : frame [] = [0, 0, 0, 0] := rfl

/-- `&incoming[4]`, when the whole frame is in the buffer. -/
theorem element_inBounds_iff {incoming : Bytes} (hheader : 4 ≤ incoming.length)
    (hfits : (ntohl incoming).toNat ≤ kMaxMsg)
    (hlen : 4 + (ntohl incoming).toNat ≤ incoming.length) :
    (Access.element 4 incoming.length).InBounds ↔ incoming ≠ frame [] := by
  constructor
  · intro hin hframe
    rw [hframe] at hin
    exact absurd hin (by decide)
  · intro hframe
    by_contra hout
    have hfour : incoming.length = 4 := Nat.le_antisymm (Nat.not_lt.mp hout) hheader
    have hempty : (ntohl incoming).toNat = 0 := by omega
    apply hframe
    have heq := eq_frame_append hheader hfits hlen
    rw [hempty, List.drop_of_length_le (by omega), List.take_zero, List.append_nil] at heq
    exact heq

/-- One call: `&incoming[4]` is out of range when the buffer is an empty frame, and
every other access is within bounds. -/
theorem tryOneRequestTraced_inBounds (c : Connection) :
    (AllInBounds c.tryOneRequestTraced.1 ↔ c.incoming ≠ frame []) ∧
      ∀ a ∈ c.tryOneRequestTraced.1, ¬ a.InBounds → a = .element 4 4 := by
  have hne (h : ¬ (c.incoming.length = 4 ∧ (ntohl c.incoming).toNat = 0)) :
      c.incoming ≠ frame [] := by
    intro hframe
    exact h (by rw [hframe]; decide)
  unfold tryOneRequestTraced
  dsimp only
  by_cases hshort : c.incoming.length < 4
  · simp only [hshort, if_true]
    exact ⟨iff_of_true allInBounds_nil (hne (by omega)), by simp⟩
  by_cases hover : kMaxMsg < (ntohl c.incoming).toNat
  · simp only [hshort, hover, if_true, if_false]
    have hall : AllInBounds (memcpy 0 4 c.incoming.length) :=
      allInBounds_memcpy.mpr (.inr (by omega))
    exact ⟨iff_of_true hall (hne (by omega)), fun a ha hout => absurd (hall a ha) hout⟩
  have hsum := toNat_sum (Nat.not_lt.mp hover)
  have hwrap : (Access.sum 4 (ntohl c.incoming)).InBounds := by
    have := kMaxMsg_lt
    change 4 + (ntohl c.incoming).toNat < 2 ^ 32
    omega
  by_cases hlen : c.incoming.length < (4 + ntohl c.incoming).toNat
  · simp only [hshort, hover, hlen, if_true, if_false]
    have hall : AllInBounds (memcpy 0 4 c.incoming.length ++ [.sum 4 (ntohl c.incoming)]) := by
      simp only [allInBounds_append, allInBounds_cons, allInBounds_nil, and_true]
      exact ⟨allInBounds_memcpy.mpr (.inr (by omega)), hwrap⟩
    exact ⟨iff_of_true hall (hne (by omega)), fun a ha hout => absurd (hall a ha) hout⟩
  · simp only [hshort, hover, hlen, if_false]
    rw [hsum] at hlen ⊢
    have hheader : AllInBounds (memcpy 0 4 c.incoming.length) :=
      allInBounds_memcpy.mpr (.inr (by omega))
    have hdata : AllInBounds (memcpy 4 (ntohl c.incoming).toNat c.incoming.length) :=
      allInBounds_memcpy.mpr (.inr (by omega))
    have hconsume : (Access.consume (4 + (ntohl c.incoming).toNat) c.incoming.length).InBounds :=
      Nat.not_lt.mp hlen
    have hfifth := element_inBounds_iff (by omega) (Nat.not_lt.mp hover) (Nat.not_lt.mp hlen)
    constructor
    · simp only [allInBounds_append, allInBounds_cons, allInBounds_nil, and_true]
      rw [hfifth]
      exact ⟨fun h => h.1.1.2.2, fun h => ⟨⟨⟨hheader, hwrap, h⟩, hdata⟩, hwrap, hconsume⟩⟩
    · intro a ha hout
      simp only [List.mem_append, List.mem_cons, List.not_mem_nil, or_false] at ha
      rcases ha with ((ha | rfl | rfl) | ha) | rfl | rfl
      · exact absurd (hheader a ha) hout
      · exact absurd hwrap hout
      · have hfour : c.incoming.length = 4 := Nat.le_antisymm (Nat.not_lt.mp hout) (by omega)
        rw [hfour]
      · exact absurd (hdata a ha) hout
      · exact absurd hwrap hout
      · exact absurd hconsume hout

theorem not_endsInEmptyFrame_of_noFrame {stream : Bytes} (h : NoFrame frame Fits stream) :
    ¬ EndsInEmptyFrame stream := by
  rintro ⟨payloads, hfits, rfl⟩
  cases payloads with
  | nil => exact h [] [] (Nat.zero_le _) (by simp)
  | cons p payloads => exact h p _ (hfits p (by simp)) (by rw [List.flatMap_cons, List.append_assoc])

/-- A frame at the front of the stream is its empty last frame or comes before it. -/
theorem endsInEmptyFrame_frame {p rest : Bytes} (hp : Fits p) :
    EndsInEmptyFrame (frame p ++ rest) ↔ frame p ++ rest = frame [] ∨ EndsInEmptyFrame rest := by
  constructor
  · rintro ⟨payloads, hfits, hstream⟩
    cases payloads with
    | nil => exact .inl hstream
    | cons q payloads =>
      rw [List.flatMap_cons, List.append_assoc] at hstream
      have hpq : p = q := prefixFree_frame hp (hfits q (by simp)) hstream
      rw [hpq] at hstream
      exact .inr ⟨payloads, fun r hr => hfits r (by simp [hr]), List.append_cancel_left hstream⟩
  · rintro (hstream | ⟨payloads, hfits, rfl⟩)
    · exact ⟨[], by simp, by simpa using hstream⟩
    · refine ⟨p :: payloads, ?_, by rw [List.flatMap_cons, List.append_assoc]⟩
      intro q hq
      rcases List.mem_cons.mp hq with rfl | hq
      · exact hp
      · exact hfits q hq

/-- Frames that were taken off earlier. -/
theorem endsInEmptyFrame_append {payloads : List Bytes} {rest : Bytes}
    (hfits : ∀ p ∈ payloads, Fits p)
    (hrest : rest ≠ []) :
    EndsInEmptyFrame (payloads.flatMap frame ++ rest) ↔ EndsInEmptyFrame rest := by
  induction payloads with
  | nil => rfl
  | cons p payloads ih =>
    have hlong : frame p ++ (payloads.flatMap frame ++ rest) ≠ frame [] := by
      intro h
      have := congrArg List.length h
      have := List.length_pos_iff.mpr hrest
      simp only [List.length_append, frame_length, List.length_nil] at *
      omega
    rw [List.flatMap_cons, List.append_assoc, endsInEmptyFrame_frame (hfits p (by simp)),
      ih (fun q hq => hfits q (by simp [hq]))]
    simp [hlong]

/-- Once the frames at the front are off, the stream ends later as it did. -/
theorem endsInEmptyFrame_later {stream rest : Bytes} {payloads : List Bytes}
    (hfront : Front frame Fits stream payloads rest) (hstream : ¬ EndsInEmptyFrame stream)
    (later : Bytes) :
    EndsInEmptyFrame (stream ++ later) ↔ EndsInEmptyFrame (rest ++ later) := by
  by_cases hnil : rest ++ later = []
  · obtain ⟨rfl, rfl⟩ := List.append_eq_nil_iff.mp hnil
    rw [List.append_nil]
    exact iff_of_false hstream (not_endsInEmptyFrame_of_noFrame hfront.maximal)
  · rw [hfront.split, List.append_assoc, endsInEmptyFrame_append hfront.admissible hnil]

/-- The loop of `handle_read` stays within bounds unless the buffer ends in an empty frame. -/
theorem drainTraced_inBounds {fuel : ℕ} {c : Connection} (h : c.incoming.length < fuel) :
    (AllInBounds (drainTraced fuel c).1 ↔ ¬ EndsInEmptyFrame c.incoming) ∧
      ∀ a ∈ (drainTraced fuel c).1, ¬ a.InBounds → a = .element 4 4 := by
  induction fuel generalizing c with
  | zero => omega
  | succ fuel ih =>
    obtain ⟨hcall, honly⟩ := tryOneRequestTraced_inBounds c
    have hsnd := tryOneRequestTraced_snd c
    rw [drainTraced]
    generalize c.tryOneRequestTraced = call at hcall honly hsnd ⊢
    rcases tryOneRequest_cases c with ⟨hno, htry⟩ | ⟨p, rest, hp, hin, htry⟩
    · obtain ⟨accesses, result⟩ := call
      rw [htry] at hsnd
      subst hsnd
      refine ⟨?_, honly⟩
      have hframe : c.incoming ≠ frame [] := fun h => hno [] [] (Nat.zero_le _) (by simpa using h)
      exact iff_of_true (hcall.mpr hframe) (not_endsInEmptyFrame_of_noFrame hno)
    · obtain ⟨accesses, result⟩ := call
      rw [htry] at hsnd
      subst hsnd
      have hlt : rest.length < fuel := by
        rw [hin, List.length_append, frame_length] at h
        omega
      obtain ⟨hlater, honly'⟩ := ih (c := { c with incoming := rest }) hlt
      constructor
      · change AllInBounds (accesses ++ (drainTraced fuel { c with incoming := rest }).1) ↔ _
        rw [allInBounds_append, hcall, hlater, hin, endsInEmptyFrame_frame hp, not_or]
      · intro a ha
        rcases List.mem_append.mp ha with ha | ha
        · exact honly a ha
        · exact honly' a ha

/-- A read leaves what follows the frames at the front of the buffer. -/
theorem handleRead_front {c : Connection} (hc : NoFrame frame Fits c.incoming) (r : ReadResult) :
    ∃ payloads responses c', c.handleRead r = .ok (responses, c') ∧
      Front frame Fits (c.incoming ++ r.bytes) payloads c'.incoming := by
  cases r with
  | again => exact ⟨[], _, _, rfl, by simpa [ReadResult.bytes] using Front.stuck hc⟩
  | eof => exact ⟨[], _, _, rfl, by simpa [ReadResult.bytes] using Front.stuck hc⟩
  | error => exact ⟨[], _, _, rfl, by simpa [ReadResult.bytes] using Front.stuck hc⟩
  | data head tail =>
    obtain ⟨payloads, rest, hfront, hdrain⟩ :=
      drain_front (c := { c with incoming := c.incoming ++ head :: tail }) (Nat.lt_succ_self _)
    exact ⟨payloads, _, _, hdrain, hfront⟩

theorem handleReadTraced_inBounds {c : Connection} (hc : NoFrame frame Fits c.incoming)
    (r : ReadResult) :
    (AllInBounds (c.handleReadTraced r).1 ↔ ¬ EndsInEmptyFrame (c.incoming ++ r.bytes)) ∧
      ∀ a ∈ (c.handleReadTraced r).1, ¬ a.InBounds → a = .element 4 4 := by
  have hquiet : AllInBounds [] ↔ ¬ EndsInEmptyFrame (c.incoming ++ []) := by
    rw [List.append_nil]
    exact iff_of_true allInBounds_nil (not_endsInEmptyFrame_of_noFrame hc)
  cases r with
  | again => exact ⟨hquiet, fun a ha => nomatch ha⟩
  | eof => exact ⟨hquiet, fun a ha => nomatch ha⟩
  | error => exact ⟨hquiet, fun a ha => nomatch ha⟩
  | data head tail =>
    exact drainTraced_inBounds (c := { c with incoming := c.incoming ++ head :: tail })
      (Nat.lt_succ_self _)

/-- Reads that begin with an incomplete frame in the buffer. -/
theorem handleReadsTraced_inBounds {c : Connection} (hc : NoFrame frame Fits c.incoming)
    (reads : List ReadResult) :
    (AllInBounds (c.handleReadsTraced reads).1 ↔
        ∀ pre, pre <+: reads → ¬ EndsInEmptyFrame (c.incoming ++ pre.flatMap ReadResult.bytes)) ∧
      ∀ a ∈ (c.handleReadsTraced reads).1, ¬ a.InBounds → a = .element 4 4 := by
  induction reads generalizing c with
  | nil =>
    refine ⟨iff_of_true allInBounds_nil ?_, fun a ha => nomatch ha⟩
    intro pre hpre
    rw [List.prefix_nil.mp hpre, List.flatMap_nil, List.append_nil]
    exact not_endsInEmptyFrame_of_noFrame hc
  | cons r reads ih =>
    obtain ⟨hcall, honly⟩ := handleReadTraced_inBounds hc r
    obtain ⟨payloads, responses, c', hread, hfront⟩ := handleRead_front hc r
    rw [← handleReadTraced_snd] at hread
    rw [handleReadsTraced]
    generalize c.handleReadTraced r = call at hcall honly hread ⊢
    obtain ⟨accesses, answer⟩ := call
    subst hread
    obtain ⟨hlater, honly'⟩ := ih hfront.maximal
    constructor
    · change AllInBounds (accesses ++ (c'.handleReadsTraced reads).1) ↔ _
      rw [allInBounds_append, hcall, hlater]
      constructor
      · rintro ⟨hfirst, hrest⟩ pre hprefix
        cases pre with
        | nil => simpa using not_endsInEmptyFrame_of_noFrame hc
        | cons r' pre =>
          obtain ⟨rfl, hpre⟩ := List.cons_prefix_cons.mp hprefix
          rw [List.flatMap_cons, ← List.append_assoc, endsInEmptyFrame_later hfront hfirst]
          exact hrest pre hpre
      · intro hall
        have hfirst : ¬ EndsInEmptyFrame (c.incoming ++ r.bytes) := by
          simpa using hall [r] (by simp)
        refine ⟨hfirst, fun pre hpre => ?_⟩
        rw [← endsInEmptyFrame_later hfront hfirst, List.append_assoc, ← List.flatMap_cons]
        exact hall (r :: pre) (List.cons_prefix_cons.mpr ⟨rfl, hpre⟩)
    · intro a ha
      rcases List.mem_append.mp ha with ha | ha
      · exact honly a ha
      · exact honly' a ha

/-- Over any sequence of reads from an accepted connection, every access of
`try_one_request` is within bounds if and only if no read ends with the last byte of
an empty frame. In any case no sum of 32 bits wraps, no more bytes are removed than
there are, and the one index that can be out of range is that of `&incoming[4]`. -/
theorem accesses_inBounds_iff (reads : List ReadResult) :
    (AllInBounds (accepted.handleReadsTraced reads).1 ↔
        ∀ pre, pre <+: reads → ¬ EndsInEmptyFrame (pre.flatMap ReadResult.bytes)) ∧
      ∀ a ∈ (accepted.handleReadsTraced reads).1, ¬ a.InBounds → a = .element 4 4 :=
  handleReadsTraced_inBounds (noFrame_of_short (by decide)) reads

/-- A read that brings an empty frame and nothing else. -/
theorem accesses_outOfBounds_emptyFrame :
    ∃ a ∈ (accepted.handleReadsTraced [.data 0 [0, 0, 0]]).1, ¬ a.InBounds := by
  decide

end Connection
end Chrono
