import Chrono.Basic
import Chrono.Library.Framing

/-!
# Connections: reading requests and writing replies

Requests and replies are frames: four bytes of length in network order, then the
payload. A read appends to `incoming` and takes off every complete frame.
-/
namespace Chrono
open Library.Framing

def kMaxMsg : ℕ := 32 <<< 20

/-- `ntohl` of the four bytes at the front of a buffer. -/
def ntohl : Bytes → UInt32
  | a :: b :: c :: d :: _ => .ofNat (((a.toNat * 256 + b.toNat) * 256 + c.toNat) * 256 + d.toNat)
  | _ => 0

def htonl (n : UInt32) : Bytes :=
  [(n >>> 24).toUInt8, (n >>> 16).toUInt8, (n >>> 8).toUInt8, n.toUInt8]

structure ReadResponse where
  success : Bool
  data : Option Bytes
deriving DecidableEq, Repr

/-- What `read` returns: a nonempty chunk, or how it fails. -/
inductive ReadResult where
  | data (head : UInt8) (tail : Bytes)
  | again
  | eof
  | error
deriving DecidableEq, Repr

def ReadResult.bytes : ReadResult → Bytes
  | .data head tail => head :: tail
  | .again | .eof | .error => []

/-- The read brings data, or finds none. -/
def ReadResult.Delivers (r : ReadResult) : Prop := r ≠ .eof ∧ r ≠ .error

instance (r : ReadResult) : Decidable r.Delivers := inferInstanceAs (Decidable (_ ∧ _))

/-- What `write` returns: the number of bytes it takes, or how it fails. -/
inductive WriteResult where
  | accepted (n : ℕ)
  | again
  | error
deriving DecidableEq, Repr

structure Connection where
  wantRead : Bool
  wantWrite : Bool
  wantClose : Bool
  incoming : Bytes
  outgoing : Bytes
deriving DecidableEq, Repr

namespace Connection

/-- `Connection::handle_accept` -/
def accepted : Connection := ⟨true, false, false, [], []⟩

/-- `try_one_request`; the sum `4 + len` is taken in 32 bits. -/
def tryOneRequest (c : Connection) : ReadResponse × Connection :=
  if c.incoming.length < 4 then (⟨false, none⟩, c)
  else
    let len := ntohl c.incoming
    if kMaxMsg < len.toNat then (⟨false, none⟩, { c with wantClose := true })
    else if c.incoming.length < (4 + len).toNat then (⟨false, none⟩, c)
    else
      (⟨true, some ((c.incoming.drop 4).take len.toNat)⟩,
        { c with incoming := c.incoming.drop (4 + len).toNat })

/-- The loop of `handle_read`, for at most `fuel` calls of `try_one_request`. -/
def drain : ℕ → Connection → Except Fault (List ReadResponse × Connection)
  | 0, _ => .error .undefined
  | fuel + 1, c =>
    let (response, c) := c.tryOneRequest
    if !response.success || response.data.isNone then .ok ([], c)
    else (drain fuel c).map (fun r => (response :: r.1, r.2))

def handleRead (c : Connection) : ReadResult → Except Fault (List ReadResponse × Connection)
  | .again => .ok ([], c)
  | .eof => .ok ([], { c with wantClose := true })
  | .error => .ok ([], { c with wantClose := true })
  | .data head tail =>
    let incoming := c.incoming ++ head :: tail
    drain (incoming.length + 1) { c with incoming }

/-- `handle_write`; `none` is a failed assertion. -/
def handleWrite (c : Connection) (w : WriteResult) : Option Connection :=
  if c.outgoing.length = 0 then none
  else
    match w with
    | .again => some c
    | .error => some { c with wantClose := true }
    | .accepted n =>
      let outgoing := c.outgoing.drop n
      if outgoing.length = 0 then some { c with outgoing, wantRead := true, wantWrite := false }
      else some { c with outgoing }

/-- A length-prefixed message. -/
def frame (data : Bytes) : Bytes := htonl (.ofNat data.length) ++ data

def enqueueResponse (c : Connection) (data : Bytes) : Connection :=
  { c with outgoing := c.outgoing ++ frame data, wantRead := false, wantWrite := true }

def handleReads (c : Connection) : List ReadResult → Except Fault (List Bytes × Connection)
  | [] => .ok ([], c)
  | r :: reads =>
    match c.handleRead r with
    | .error e => .error e
    | .ok (responses, c) =>
      (handleReads c reads).map (fun r => (responses.filterMap ReadResponse.data ++ r.1, r.2))

/-! ## Frames -/

/-- A payload of admissible length. -/
def Fits (data : Bytes) : Prop := data.length ≤ kMaxMsg

/-- The buffer begins with a header that announces too long a payload. -/
def Oversized (buf : Bytes) : Prop := 4 ≤ buf.length ∧ kMaxMsg < (ntohl buf).toNat

instance (buf : Bytes) : Decidable (Oversized buf) := inferInstanceAs (Decidable (_ ∧ _))

theorem kMaxMsg_lt : kMaxMsg < 2 ^ 32 - 4 := by decide

/-- The sum of a header's length and the header's own four bytes does not wrap. -/
theorem toNat_sum {len : UInt32} (h : len.toNat ≤ kMaxMsg) : (4 + len).toNat = 4 + len.toNat := by
  have := kMaxMsg_lt
  rw [UInt32.toNat_add]
  exact Nat.mod_eq_of_lt (by simp; omega)

theorem ntohl_htonl (n : UInt32) (r : Bytes) : ntohl (htonl n ++ r) = n := by
  have := n.toNat_lt
  apply UInt32.toNat_inj.mp
  simp only [htonl, ntohl, List.cons_append, UInt32.toNat_toUInt8, UInt32.toNat_shiftRight,
    UInt32.toNat_ofNat', UInt32.reduceToNat, Nat.reduceMod, Nat.shiftRight_eq_div_pow]
  omega

theorem htonl_ntohl (a b c d : UInt8) (r : Bytes) :
    htonl (ntohl (a :: b :: c :: d :: r)) = [a, b, c, d] := by
  have := a.toNat_lt
  have := b.toNat_lt
  have := c.toNat_lt
  have := d.toNat_lt
  simp only [htonl, ntohl, List.cons.injEq, and_true, ← UInt8.toNat_inj, UInt32.toNat_toUInt8,
    UInt32.toNat_shiftRight, UInt32.toNat_ofNat', UInt32.reduceToNat, Nat.reduceMod,
    Nat.shiftRight_eq_div_pow]
  omega

@[simp] theorem htonl_length (n : UInt32) : (htonl n).length = 4 := rfl

@[simp] theorem frame_length (data : Bytes) : (frame data).length = 4 + data.length := by
  simp [frame]

theorem ntohl_frame {data : Bytes} (h : Fits data) (r : Bytes) :
    (ntohl (frame data ++ r)).toNat = data.length := by
  have := kMaxMsg_lt
  unfold Fits at h
  rw [frame, List.append_assoc, ntohl_htonl]
  exact Nat.mod_eq_of_lt (by omega)

theorem prefixFree_frame : PrefixFree frame Fits := by
  intro p q r s hp hq h
  have hlen : p.length = q.length := by rw [← ntohl_frame hp r, h, ntohl_frame hq s]
  rw [frame, frame, hlen, List.append_assoc, List.append_assoc] at h
  exact (List.append_inj (List.append_cancel_left h) hlen).1

/-- A buffer that holds all the bytes its header announces begins with a frame. -/
theorem eq_frame_append {buf : Bytes} (hheader : 4 ≤ buf.length) (hfits : (ntohl buf).toNat ≤ kMaxMsg)
    (hlen : 4 + (ntohl buf).toNat ≤ buf.length) :
    buf = frame ((buf.drop 4).take (ntohl buf).toNat) ++ buf.drop (4 + (ntohl buf).toNat) := by
  match buf, hheader with
  | a :: b :: c :: d :: s, _ =>
    generalize hn : ntohl (a :: b :: c :: d :: s) = n at hfits hlen ⊢
    have htake : (s.take n.toNat).length = n.toNat := by
      rw [List.length_take]
      simp only [List.length_cons] at hlen
      omega
    have hheader : htonl n = [a, b, c, d] := by rw [← hn, htonl_ntohl]
    have hdrop : (a :: b :: c :: d :: s).drop (4 + n.toNat) = s.drop n.toNat := by
      rw [Nat.add_comm]
      rfl
    rw [hdrop, List.drop_succ_cons, List.drop_succ_cons, List.drop_succ_cons, List.drop_succ_cons,
      List.drop_zero, frame, htake, UInt32.ofNat_toNat, hheader, List.append_assoc,
      List.take_append_drop]
    rfl

theorem noFrame_of_short {buf : Bytes} (h : buf.length < 4) : NoFrame frame Fits buf := by
  rintro p r - rfl
  rw [List.length_append, frame_length] at h
  omega

theorem noFrame_of_oversized {buf : Bytes} (h : kMaxMsg < (ntohl buf).toNat) :
    NoFrame frame Fits buf := by
  rintro p r hp rfl
  rw [ntohl_frame hp] at h
  exact absurd hp (Nat.not_le.mpr h)

theorem noFrame_of_incomplete {buf : Bytes} (h : buf.length < 4 + (ntohl buf).toNat) :
    NoFrame frame Fits buf := by
  rintro p r hp rfl
  rw [ntohl_frame hp, List.length_append, frame_length] at h
  omega

/-- `try_one_request` takes a complete frame off, or refuses a buffer that does not
begin with one, asking for the connection to be closed if its header is oversized. -/
theorem tryOneRequest_cases (c : Connection) :
    (NoFrame frame Fits c.incoming ∧ c.tryOneRequest =
        (⟨false, none⟩, { c with wantClose := c.wantClose || decide (Oversized c.incoming) })) ∨
      ∃ p rest, Fits p ∧ c.incoming = frame p ++ rest ∧
        c.tryOneRequest = (⟨true, some p⟩, { c with incoming := rest }) := by
  unfold tryOneRequest
  by_cases hshort : c.incoming.length < 4
  · have hover : ¬ Oversized c.incoming := fun h => by have := h.1; omega
    refine .inl ⟨noFrame_of_short hshort, ?_⟩
    simp [hshort, hover]
  by_cases hover : kMaxMsg < (ntohl c.incoming).toNat
  · have hO : Oversized c.incoming := ⟨by omega, hover⟩
    refine .inl ⟨noFrame_of_oversized hover, ?_⟩
    simp [hshort, hover, hO]
  have hnot : ¬ Oversized c.incoming := fun h => hover h.2
  have hsum := toNat_sum (Nat.not_lt.mp hover)
  by_cases hlen : c.incoming.length < 4 + (ntohl c.incoming).toNat
  · refine .inl ⟨noFrame_of_incomplete hlen, ?_⟩
    simp [hshort, hover, hnot, hsum, hlen]
  · refine .inr ⟨(c.incoming.drop 4).take (ntohl c.incoming).toNat,
      c.incoming.drop (4 + (ntohl c.incoming).toNat), ?_, ?_, ?_⟩
    · unfold Fits
      rw [List.length_take]
      omega
    · exact eq_frame_append (by omega) (by omega) (by omega)
    · simp only [hshort, hover, hsum, hlen, if_false]

/-- The loop ends, having taken off all the frames at the front of the buffer. -/
theorem drain_front {fuel : ℕ} {c : Connection} (h : c.incoming.length < fuel) :
    ∃ payloads rest, Front frame Fits c.incoming payloads rest ∧
      drain fuel c = .ok (payloads.map (fun p => ⟨true, some p⟩),
        { c with incoming := rest, wantClose := c.wantClose || decide (Oversized rest) }) := by
  induction fuel generalizing c with
  | zero => omega
  | succ fuel ih =>
    rcases tryOneRequest_cases c with ⟨hno, htry⟩ | ⟨p, rest, hp, hin, htry⟩
    · refine ⟨[], c.incoming, Front.stuck hno, ?_⟩
      simp [drain, htry]
    · have hlt : rest.length < fuel := by
        rw [hin, List.length_append, frame_length] at h
        omega
      obtain ⟨payloads, rest', hfront, hdrain⟩ := ih (c := { c with incoming := rest }) hlt
      refine ⟨p :: payloads, rest', ?_, ?_⟩
      · rw [hin]
        exact Front.cons hp hfront
      · rw [drain, htry]
        simp [hdrain, Except.map]

theorem Oversized.append {buf : Bytes} (h : Oversized buf) (r : Bytes) : Oversized (buf ++ r) := by
  obtain ⟨hheader, hover⟩ := h
  match buf, hheader with
  | a :: b :: c :: d :: s, _ =>
    refine ⟨?_, hover⟩
    simp

/-- A connection between two reads. -/
structure Settled (c : Connection) : Prop where
  noFrame : NoFrame frame Fits c.incoming
  wantClose : c.wantClose = decide (Oversized c.incoming)

theorem settled_accepted : Settled accepted := ⟨noFrame_of_short (by decide), by decide⟩

/-- A call of `handle_read` takes off the frames that its chunk completes. -/
theorem Settled.handleRead {c : Connection} (hc : Settled c) {r : ReadResult} (hr : r.Delivers) :
    ∃ payloads rest, Front frame Fits (c.incoming ++ r.bytes) payloads rest ∧
      c.handleRead r = .ok (payloads.map (fun p => ⟨true, some p⟩),
        { c with incoming := rest, wantClose := decide (Oversized rest) }) := by
  cases r with
  | eof => exact absurd rfl hr.1
  | error => exact absurd rfl hr.2
  | again =>
    refine ⟨[], c.incoming, ?_, ?_⟩
    · rw [ReadResult.bytes, List.append_nil]
      exact Front.stuck hc.noFrame
    · rw [← hc.wantClose]
      rfl
  | data head tail =>
    obtain ⟨payloads, rest, hfront, hdrain⟩ :=
      drain_front (c := { c with incoming := c.incoming ++ head :: tail }) (Nat.lt_succ_self _)
    refine ⟨payloads, rest, hfront, ?_⟩
    have hclose : (c.wantClose || decide (Oversized rest)) = decide (Oversized rest) := by
      rw [hc.wantClose]
      by_cases hover : Oversized c.incoming
      · -- an oversized header stays at the front of the buffer
        have hover' := hover.append (head :: tail)
        obtain ⟨-, hrest⟩ :=
          hfront.unique prefixFree_frame (Front.stuck (noFrame_of_oversized hover'.2))
        rw [hrest]
        simp [hover, hover']
      · simp [hover]
    rw [Connection.handleRead, hdrain, hclose]

theorem Settled.handleReads {c : Connection} (hc : Settled c) {reads : List ReadResult}
    (hreads : ∀ r ∈ reads, r.Delivers) :
    ∃ payloads rest, Front frame Fits (c.incoming ++ reads.flatMap ReadResult.bytes) payloads rest ∧
      c.handleReads reads =
        .ok (payloads, { c with incoming := rest, wantClose := decide (Oversized rest) }) := by
  induction reads generalizing c with
  | nil =>
    refine ⟨[], c.incoming, ?_, ?_⟩
    · rw [List.flatMap_nil, List.append_nil]
      exact Front.stuck hc.noFrame
    · rw [← hc.wantClose]
      rfl
  | cons r reads ih =>
    obtain ⟨payloads, rest, hfront, hread⟩ := hc.handleRead (hreads r (by simp))
    obtain ⟨payloads', rest', hfront', hreads'⟩ :=
      ih (c := { c with incoming := rest, wantClose := decide (Oversized rest) })
        ⟨hfront.maximal, rfl⟩ (fun r hr => hreads r (by simp [hr]))
    refine ⟨payloads ++ payloads', rest', ?_, ?_⟩
    · rw [List.flatMap_cons, ← List.append_assoc]
      exact hfront.extend hfront'
    · rw [Connection.handleReads, hread]
      simp only [hreads', Except.map]
      simp [List.filterMap_map]

/-- However a stream is cut into reads, `handle_read` returns the same payloads in all,
keeps the same bytes and asks for the same connections to be closed: the payloads
of the complete frames at the front of the stream, up to the first oversized
header. Every call of `handle_read` returns. -/
theorem framing_independent (reads reads' : List ReadResult) (hreads : ∀ r ∈ reads, r.Delivers)
    (hreads' : ∀ r ∈ reads', r.Delivers)
    (hsame : reads.flatMap ReadResult.bytes = reads'.flatMap ReadResult.bytes) :
    (∃ payloads c, accepted.handleReads reads = .ok (payloads, c) ∧
      accepted.handleReads reads' = .ok (payloads, c) ∧
      Front frame Fits (reads.flatMap ReadResult.bytes) payloads c.incoming ∧
      (c.wantClose = true ↔ Oversized c.incoming)) ∧
    ∀ (c : Connection) (r : ReadResult), ∃ answer, c.handleRead r = .ok answer := by
  constructor
  · obtain ⟨payloads, rest, hfront, hrun⟩ := settled_accepted.handleReads hreads
    obtain ⟨payloads', rest', hfront', hrun'⟩ := settled_accepted.handleReads hreads'
    rw [← hsame] at hfront'
    obtain ⟨rfl, rfl⟩ := hfront.unique prefixFree_frame hfront'
    exact ⟨payloads, _, hrun, hrun', hfront, by simp⟩
  · intro c r
    cases r with
    | again => exact ⟨_, rfl⟩
    | eof => exact ⟨_, rfl⟩
    | error => exact ⟨_, rfl⟩
    | data head tail =>
      obtain ⟨payloads, rest, -, hdrain⟩ :=
        drain_front (c := { c with incoming := c.incoming ++ head :: tail }) (Nat.lt_succ_self _)
      exact ⟨_, hdrain⟩

/-- An empty frame and a frame of one byte, at once or byte by byte. -/
theorem framing_independent_witness :
    let reads : List ReadResult := [.data 0 [0, 0, 0, 0, 0, 0, 1, 7]]
    let reads' : List ReadResult :=
      [.data 0 [0], .again, .data 0 [0, 0, 0], .data 0 [], .data 1 [7]]
    (∃ payloads c, accepted.handleReads reads = .ok (payloads, c) ∧
      accepted.handleReads reads' = .ok (payloads, c) ∧
      Front frame Fits (reads.flatMap ReadResult.bytes) payloads c.incoming ∧
      (c.wantClose = true ↔ Oversized c.incoming)) ∧
    ∀ (c : Connection) (r : ReadResult), ∃ answer, c.handleRead r = .ok answer :=
  framing_independent [.data 0 [0, 0, 0, 0, 0, 0, 1, 7]]
    [.data 0 [0], .again, .data 0 [0, 0, 0], .data 0 [], .data 1 [7]]
    (by decide) (by decide) rfl

end Connection
end Chrono
