import Chrono.Client.Client

/-!
# What the client makes of a reply

Every reply of the server ends as a value or as an exception in the client, whatever
bytes it carries: ASCII bytes of a text are characters of their own, so that the frame
of a reply and its contents are decoded apart.
-/
namespace Chrono.Client
open Library

/-! ## ASCII bytes are characters -/

theorem decode_eq_some_iff {b : Bytes} {t : Text} : decode b = some t ↔ b = encode t := by
  constructor
  · intro h
    obtain ⟨a, ha, rfl⟩ := Option.map_eq_some_iff.mp h
    have hsome : b.toByteArray.utf8Decode?.isSome = true := by rw [ha]; rfl
    have hencode := ByteArray.utf8Encode_get_utf8Decode? (h := hsome)
    simp only [ha, Option.get_some] at hencode
    have hdata : (encode a.toList).toByteArray.data.toList = b.toByteArray.data.toList :=
      congrArg (fun x : ByteArray => x.data.toList) hencode
    rw [List.toList_data_toByteArray, List.toList_data_toByteArray] at hdata
    exact hdata.symm
  · rintro rfl
    exact decode_encode t

theorem encode_injective {s t : Text} (h : encode s = encode t) : s = t := by
  have hs := decode_encode s
  rw [h, decode_encode] at hs
  exact (Option.some.inj hs).symm

/-- No byte of another character is ASCII. -/
theorem high_of_mem {c : Char} (hc : ¬ c.toNat < 0x80) :
    ∀ b ∈ String.utf8EncodeChar c, 0x80 ≤ b.toNat := by
  have hvalid : c.val.toNat < 0xD800 ∨ 0xDFFF < c.val.toNat ∧ c.val.toNat < 0x110000 := c.valid
  have hlow : ¬ c.val.toNat < 0x80 := hc
  rw [String.utf8EncodeChar]
  generalize c.val.toNat = v at hvalid hlow ⊢
  split_ifs with h₁ h₂ h₃
  · omega
  all_goals
    simp
    omega

/-- An ASCII byte of an encoded text parts the text. -/
theorem encode_parts {c : Char} (hc : c.toNat < 0x80) {t : Text} {p q : Bytes}
    (h : encode t = p ++ c.toNat.toUInt8 :: q) :
    ∃ u v, t = u ++ c :: v ∧ encode u = p ∧ encode v = q := by
  induction t generalizing p with
  | nil => simp [encode] at h
  | cons d t ih =>
    rw [encode_cons] at h
    by_cases hd : d.toNat < 0x80
    · rw [utf8EncodeChar_ascii hd, List.singleton_append] at h
      cases p with
      | nil =>
        obtain ⟨hbyte, rfl⟩ := List.cons.inj h
        have hdc : d = c := by
          have hnat := congrArg UInt8.toNat hbyte
          simp only [Nat.toUInt8, UInt8.toNat_ofNat'] at hnat
          rw [Nat.mod_eq_of_lt (by omega), Nat.mod_eq_of_lt (by omega)] at hnat
          exact Char.toNat_inj.mp hnat
        exact ⟨[], t, by rw [hdc]; rfl, rfl, rfl⟩
      | cons b p =>
        obtain ⟨rfl, htail⟩ := List.cons.inj h
        obtain ⟨u, v, rfl, rfl, rfl⟩ := ih htail
        exact ⟨d :: u, v, rfl, by rw [encode_cons, utf8EncodeChar_ascii hd]; rfl, rfl⟩
    · have hrest : ∃ p', p = String.utf8EncodeChar d ++ p' ∧
          encode t = p' ++ c.toNat.toUInt8 :: q := by
        rcases List.append_eq_append_iff.mp h with ⟨p', hp, ht⟩ | ⟨r, hr, hq⟩
        · exact ⟨p', hp, ht⟩
        · cases r with
          | nil => exact ⟨[], by simpa using hr.symm, by simpa using hq.symm⟩
          | cons b r =>
            obtain ⟨rfl, -⟩ := List.cons.inj hq
            have hhigh := high_of_mem hd c.toNat.toUInt8 (by rw [hr]; simp)
            simp only [Nat.toUInt8, UInt8.toNat_ofNat'] at hhigh
            omega
      obtain ⟨p', rfl, ht⟩ := hrest
      obtain ⟨u, v, rfl, rfl, rfl⟩ := ih ht
      exact ⟨d :: u, v, rfl, encode_cons d u, rfl⟩

theorem encode_singleton {c : Char} (hc : c.toNat < 0x80) : encode [c] = [c.toNat.toUInt8] :=
  encode_ascii (s := [c]) (by simpa [Ascii] using hc)

theorem decode_cons {c : Char} (hc : c.toNat < 0x80) (b : Bytes) :
    decode (c.toNat.toUInt8 :: b) = (decode b).map (c :: ·) := by
  ext t
  simp only [Option.map_eq_some_iff, decode_eq_some_iff]
  constructor
  · intro h
    obtain ⟨u, v, rfl, hu, hv⟩ := encode_parts hc (p := []) h.symm
    obtain rfl : u = [] := encode_injective hu
    exact ⟨v, hv.symm, rfl⟩
  · rintro ⟨v, rfl, rfl⟩
    rw [encode_cons, utf8EncodeChar_ascii hc]
    rfl

theorem decode_concat {c : Char} (hc : c.toNat < 0x80) (b : Bytes) :
    decode (b ++ [c.toNat.toUInt8]) = (decode b).map (· ++ [c]) := by
  ext t
  simp only [Option.map_eq_some_iff, decode_eq_some_iff]
  constructor
  · intro h
    obtain ⟨u, v, rfl, rfl, hv⟩ := encode_parts hc h.symm
    obtain rfl : v = [] := encode_injective hv
    exact ⟨u, rfl, rfl⟩
  · rintro ⟨u, rfl, rfl⟩
    rw [encode_append, encode_singleton hc]

theorem decode_between {front back : Text} (hfront : Ascii front) (hback : Ascii back) (b : Bytes) :
    decode (encode front ++ b ++ encode back) = (decode b).map (front ++ · ++ back) := by
  induction front with
  | nil =>
    induction back using List.reverseRecOn with
    | nil => simp [encode]
    | append_singleton back c ih =>
      obtain ⟨hback, hc⟩ := (ascii_append back [c]).mp hback
      have hlow : c.toNat < 0x80 := hc c (by simp)
      rw [encode_append, encode_singleton hlow, ← List.append_assoc, decode_concat hlow, ih hback,
        Option.map_map]
      congr 1
      funext t
      simp
  | cons c front ih =>
    have hlow : c.toNat < 0x80 := hfront c (by simp)
    rw [encode_cons, utf8EncodeChar_ascii hlow, List.singleton_append, List.cons_append,
      List.cons_append, decode_cons hlow, ih fun d hd => hfront d (by simp [hd]), Option.map_map]
    rfl

/-- A text that is a line in bytes is a line in characters. -/
theorem findCrlf_of_encode {t : Text} (h : Chrono.RespParser.findCrlf (encode t) = none) :
    RespParser.findCrlf t = none := by
  induction t with
  | nil => rfl
  | cons c t ih =>
    have hpair : ¬ (c = '\r' ∧ t.head? = some '\n') := by
      rintro ⟨rfl, hhead⟩
      cases t with
      | nil => cases hhead
      | cons d t =>
        obtain rfl : d = '\n' := Option.some.inj hhead
        rw [encode_cons, encode_cons, utf8EncodeChar_ascii (by decide),
          utf8EncodeChar_ascii (by decide)] at h
        cases h
    rw [encode_cons] at h
    rw [RespParser.findCrlf, Terminator.find, if_neg hpair, Option.map_eq_none_iff]
    exact ih (Terminator.find_suffix h)

/-! ## Replies -/

def raised (message : Bytes) : Raised :=
  match decode message with
  | none => .unicodeDecodeError
  | some t => .valueError t

/-- What becomes of the bytes of a string. -/
def received (s : Bytes) : Except Raised Text :=
  match decode s with
  | none => .error .unicodeDecodeError
  | some t => if Ascii t then .ok t else .error (.valueError "Invalid response from server".toList)

theorem readReply_undecodable {reply : Bytes} (hlen : reply.length < 2 ^ 32)
    (h : decode reply = none) :
    readReply (Connection.frame reply) = .error .unicodeDecodeError := by
  rw [readReply, recvResponse_frame hlen]
  dsimp only
  rw [RespParser.parse, h]
  rfl

theorem readReply_error {message : Bytes} (hline : Chrono.RespParser.findCrlf message = none)
    (hlen : (RespSerializer.error message).length < 2 ^ 32) :
    readReply (Connection.frame (RespSerializer.error message)) = .error (raised message) := by
  cases hdecode : decode message with
  | none =>
    have hreply : decode (RespSerializer.error message) = none := by
      have hframed :=
        decode_between (show Ascii "-".toList by decide) (show Ascii "\r\n".toList by decide) message
      rw [hdecode] at hframed
      exact hframed
    rw [readReply_undecodable hlen hreply, raised, hdecode]
  | some t =>
    obtain rfl := decode_eq_some_iff.mp hdecode
    rw [readReply_frame hlen (RespParser.parse_error (findCrlf_of_encode hline)), raised, hdecode]
    rfl

theorem readReply_bulkString {s : Bytes} (hlen : (RespSerializer.bulkString s).length < 2 ^ 32) :
    readReply (Connection.frame (RespSerializer.bulkString s)) = (received s).map .str := by
  cases hdecode : decode s with
  | none =>
    have hfront : Ascii ("$".toList ++ numeral s.length ++ "\r\n".toList) :=
      (ascii_append _ _).mpr ⟨(ascii_append _ _).mpr ⟨by decide, ascii_numeral _⟩, by decide⟩
    have hreply : decode (RespSerializer.bulkString s) = none := by
      have hframed := decode_between hfront (show Ascii "\r\n".toList by decide) s
      rw [hdecode, encode_append, encode_append, encode_numeral] at hframed
      exact hframed
    rw [readReply_undecodable hlen hreply, received, hdecode]
    rfl
  | some t =>
    obtain rfl := decode_eq_some_iff.mp hdecode
    have hshort : (encode t).length < 10 ^ maxStrDigits := by
      have hword : (encode t).length ≤ (RespSerializer.bulkString (encode t)).length := by
        simp only [RespSerializer.bulkString, List.length_append]
        omega
      have hpow : 10 ^ 10 ≤ 10 ^ maxStrDigits := Nat.pow_le_pow_right (by decide) (by decide)
      omega
    rw [readReply_frame hlen (RespParser.parse_bulkString hshort), received, hdecode]
    by_cases hascii : Ascii t
    · simp only [if_pos hascii]
      rfl
    · simp only [if_neg hascii]
      rfl

theorem length_decimal {n : ℤ} {k : ℕ} (h : n.natAbs < 10 ^ k) :
    (RespSerializer.decimal n).length ≤ k + 1 := by
  have hdigits (m : ℕ) (hm : m < 10 ^ k) : (Nat.toDigits 10 m).length ≤ k + 1 := by
    rw [Nat.length_toDigits_le_iff (by decide) (Nat.succ_pos k)]
    exact Nat.lt_of_lt_of_le hm (Nat.pow_le_pow_right (by decide) (Nat.le_succ k))
  rw [← encode_numeral, (length_encode _).2.mpr (ascii_numeral n)]
  rcases Int.eq_nat_or_neg n with ⟨m, rfl | rfl⟩
  · rw [numeral_nat]
    exact hdigits m (by simpa using h)
  · rcases Nat.eq_zero_or_pos m with rfl | hpos
    · exact hdigits 0 (Nat.pow_pos (by decide))
    · rw [numeral_neg hpos, List.length_cons]
      rcases Nat.eq_zero_or_pos k with rfl | hk
      · simp at h
        omega
      · exact Nat.succ_le_succ ((Nat.length_toDigits_le_iff (by decide) hk).mpr (by simpa using h))

theorem readReply_integer {n : ℤ} (h : n.natAbs ≤ 2 ^ 63) :
    readReply (Connection.frame (RespSerializer.integer n)) = .ok (.int n) := by
  have hpow : 10 ^ 19 ≤ 10 ^ maxStrDigits := Nat.pow_le_pow_right (by decide) (by decide)
  have hdigits : (RespSerializer.decimal n).length ≤ 19 + 1 := length_decimal (by omega)
  have hlen : (RespSerializer.integer n).length < 2 ^ 32 := by
    simp only [RespSerializer.integer, RespSerializer.crlf, lit, List.length_append, List.length_map]
    simp
    omega
  rw [readReply_frame hlen (RespParser.parse_integer (by omega))]
  rfl

theorem readReply_nullBulk : readReply (Connection.frame RespSerializer.nullBulk) = .ok .none := by
  rw [readReply_frame (by decide) RespParser.parse_nullBulk]
  rfl

theorem readReply_ok : readReply (Connection.frame RespSerializer.ok) = .ok (.str "OK".toList) := by
  rw [readReply_frame (by decide) parse_ok]
  rfl

theorem readReply_pong : readReply (Connection.frame (lit "+PONG\r\n")) =
    .ok (.str "PONG".toList) := by
  have htext : lit "+PONG\r\n" = encode "+PONG\r\n".toList := rfl
  have hparse : RespParser.parse (lit "+PONG\r\n") = some (some (.simpleString "PONG".toList 7)) := by
    rw [htext, RespParser.parse_encode]
    rfl
  rw [readReply_frame (by decide) hparse]
  rfl

end Chrono.Client
