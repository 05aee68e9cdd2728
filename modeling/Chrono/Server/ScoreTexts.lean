import Chrono.Server.NumericArguments
import Chrono.SortedSets.ScoreMaps

/-!
# Scores and the texts of their replies

The sets keep and order whole scores, and `ZSCORE` replies with six decimal places. So
a score comes back from its reply exactly when it is the `double` nearest to a number
with six places.
-/
namespace Chrono
open ChronoCache CommandHandler Library Library.Rounding Library.Longest

/-! ## One command -/

theorem carries_zscore (args : List Bytes) :
    (RespValue.command (lit "ZSCORE" :: args)).Carries "ZSCORE" args :=
  carries_command (by decide) args

section
variable {α : Type} [LinearOrder α] {json : JsonLib} {text : DoubleText α} {c : ChronoCache α}
  {env : CommandEnv}
  {command : RespValue} {key member : Bytes}

theorem respond_zadd_ok (hc : c.isAcceptingOps = true) {s : Bytes}
    (h : command.Carries "ZADD" [key, s, member])
    {score : Score α} (hs : text.stod s = .ok score) :
    EventLoop.respond json text env (some command) c =
      (.ok (flag (c.sortedSets.zadd key score member).1),
        { c with sortedSets := (c.sortedSets.zadd key score member).2 }) := by
  have hzadd : c.zadd key score member = (.ok (c.sortedSets.zadd key score member).1,
      { c with sortedSets := (c.sortedSets.zadd key score member).2 }) := by
    simp [ChronoCache.zadd, checkAcceptingOps, hc]
  rw [respond_zadd h, hs]
  simp [call, hzadd, Except.map, EventLoop.caught]

theorem respond_zscore (hc : c.isAcceptingOps = true) (h : command.Carries "ZSCORE" [key, member]) :
    EventLoop.respond json text env (some command) c =
      (.ok (bulkOrNull ((c.sortedSets.zscore key member).map text.toText)), c) := by
  have hzscore : c.zscore key member = .ok (c.sortedSets.zscore key member) := by
    simp [ChronoCache.zscore, checkAcceptingOps, hc]
  change EventLoop.caught (execute json text env command c) = _
  obtain ⟨rest, hargs, hrun⟩ := h.execute json text env rfl
  obtain ⟨a₁, a₂, rfl, rfl, rfl⟩ := pair_of_map hargs
  rw [hrun, cmdZscore]
  simp [call, hzscore, Except.map, EventLoop.caught]

end

/-! ## A score and its reply -/

def NearestToSixPlaces (x : ℚ) : Prop := ∃ k : ℤ, x = toBinary64 (k / 10 ^ 6)

theorem stod_toText_iff (under : Underflow) (x : FiniteDouble) :
    stod under (toText (.num (.finite x))) = .ok (.num (.finite x)) ↔ NearestToSixPlaces x := by
  have hround := round_places_iff (d := 6) (by norm_num) (by norm_num) x.2.1
  rw [stod_toText]
  constructor
  · intro h
    have heq := congrArg Subtype.val (Double.finite.inj (Score.num.inj (Except.ok.inj h)))
    exact hround.mp heq
  · intro h
    have heq : toBinary64 (places 6 x) = x := hround.mpr h
    exact congrArg (fun y => Except.ok (Score.num (Double.finite y))) (Subtype.ext heq)

theorem floatLiteral_toText_iff (x : FiniteDouble) :
    floatLiteral (toText (.num (.finite x))) = some (.number x) ↔
    ∃ k : ℤ, (x : ℚ) = k / 10 ^ 6 := by
  rw [floatLiteral_toText, Option.some.injEq, FloatLiteral.number.injEq, places_eq_self_iff]

/-- A length-delimited reply determines its bytes. -/
theorem bulkString_inj {s t : Bytes}
    (h : RespSerializer.bulkString s = RespSerializer.bulkString t) : s = t := by
  have hparts (s : Bytes) : RespSerializer.bulkString s =
      0x24 :: (Decimal.digits s.length ++ (RespSerializer.crlf ++ (s ++ RespSerializer.crlf))) := by
    simp [RespSerializer.bulkString, decimal_nat, lit]
  have hdigits (s : Bytes) :
      (RespSerializer.bulkString s).tail.takeWhile isDigit = Decimal.digits s.length := by
    rw [hparts, List.tail_cons, List.takeWhile_append_of_pos fun b hb =>
      isDigit_iff.mpr (Decimal.isDigit_of_mem_digits hb)]
    simp [RespSerializer.crlf, lit, isDigit]
  have hlength : s.length = t.length := by
    rw [← Decimal.value_digits s.length, ← hdigits s, h, hdigits t, Decimal.value_digits]
  rw [hparts, hparts, hlength] at h
  exact (List.append_inj
    (List.append_cancel_left (List.append_cancel_left (List.cons.inj h).2)) hlength).1

/-! ## Ranks -/

def pairScores {α : Type} (u v : α) : Bytes → Option α :=
  Function.update (Function.update (fun _ => none) (lit "a") (some u)) (lit "b") (some v)

def pairSets {α : Type} [LinearOrder α] (u v : α) : SortedSetsAPI α :=
  ((SortedSetsAPI.empty.zadd (lit "k") (.num u) (lit "a")).2.zadd (lit "k") (.num v) (lit "b")).2

section
variable {α : Type} [LinearOrder α]

theorem holds_pairSets (u v : α) : ((pairSets u v).setAt (lit "k")).Holds (pairScores u v) := by
  have hempty : ((SortedSetsAPI.empty : SortedSetsAPI α).setAt (lit "k")).Holds
      (ScoreMaps.empty (lit "k")) :=
    SortedSetsAPI.refines_empty (lit "k")
  have hfirst := (hempty.zadd u (lit "a")).2
  rw [pairSets, SortedSetsAPI.setAt_zadd, if_pos rfl, SortedSetsAPI.setAt_zadd, if_pos rfl]
  exact (hfirst.zadd v (lit "b")).2

theorem zrank_pair {api : SortedSetsAPI α} {u v : α}
    (h : (api.setAt (lit "k")).Holds (pairScores u v)) :
    api.zrank (lit "k") (lit "a") = some (if v < u then 1 else 0) := by
  have hfirst : pairScores u v (lit "a") = some u := by simp [pairScores, lit]
  have hsmaller : ScoreMaps.smaller (pairScores u v) u (lit "a") =
      if v < u then {lit "b"} else ∅ := by
    ext m
    have hmem : m ∈ (if v < u then {lit "b"} else ∅ : Set Bytes) ↔ v < u ∧ m = lit "b" := by
      split_ifs with hlt <;> simp [hlt]
    rw [hmem, ScoreMaps.smaller, Set.mem_ofPred_eq]
    constructor
    · rintro ⟨w, hw, hlt⟩
      by_cases hb : m = lit "b"
      · obtain rfl : v = w := by simpa [pairScores, hb] using hw
        refine ⟨hlt.resolve_right fun h => ?_, hb⟩
        exact absurd (hb ▸ h.2) (by decide : ¬ lit "b" < lit "a")
      · by_cases ha : m = lit "a"
        · obtain rfl : u = w := by simpa [pairScores, ha, lit] using hw
          rcases hlt with hlt | ⟨-, hlt⟩
          · exact absurd hlt (lt_irrefl _)
          · exact absurd (ha ▸ hlt) (by decide : ¬ lit "a" < lit "a")
        · simp [pairScores, ha, hb] at hw
    · rintro ⟨hlt, rfl⟩
      exact ⟨v, by simp [pairScores], .inl hlt⟩
  rw [SortedSetsAPI.zrank_eq, h.zrank, hfirst, Option.map_some, hsmaller]
  split_ifs <;> simp

theorem zscore_pairSets (u v : α) : (pairSets u v).zscore (lit "k") (lit "a") = some (.num u) := by
  rw [SortedSetsAPI.zscore_eq, (holds_pairSets u v).memberScore]
  simp [pairScores, lit]

theorem holds_pairSets_zadd (u v w : α) :
    (((pairSets u v).zadd (lit "k") (.num w) (lit "a")).2.setAt (lit "k")).Holds
      (pairScores w v) := by
  have hnext := ((holds_pairSets u v).zadd w (lit "a")).2
  rw [pairScores, Function.update_comm (by decide), Function.update_idem] at hnext
  rw [SortedSetsAPI.setAt_zadd, if_pos rfl]
  exact hnext

/-- Another score for the first member, while the second has the smaller of the two, changes
its rank. -/
theorem zrank_pairSets_ne {u w : α} (h : u ≠ w) :
    ((pairSets u (min u w)).zadd (lit "k") (.num w) (lit "a")).2.zrank (lit "k") (lit "a") ≠
      (pairSets u (min u w)).zrank (lit "k") (lit "a") := by
  rw [zrank_pair (holds_pairSets_zadd u (min u w) w), zrank_pair (holds_pairSets u (min u w))]
  rcases lt_or_gt_of_ne h with hlt | hgt
  · simp [min_eq_left hlt.le, hlt]
  · simp [min_eq_right hgt.le, hgt]

end

/-- Adding a member again with the score that is replied for it changes no rank. -/
def KeepsRanks (json : JsonLib) (under : Underflow) (x : FiniteDouble) : Prop :=
  ∀ (env env' : CommandEnv) (c : ChronoCache Double) (key member : Bytes)
    (zscore zadd : RespValue)
    (t : Bytes), c.isAcceptingOps = true → c.sortedSets.zscore key member = some (.num (.finite x)) →
    zscore.Carries "ZSCORE" [key, member] →
    (EventLoop.respond json (doubleText under) env (some zscore) c).1 =
      .ok (RespSerializer.bulkString t) →
    zadd.Carries "ZADD" [key, t, member] →
    ∀ k m, (EventLoop.respond json (doubleText under) env' (some zadd) c).2.sortedSets.zrank k m =
      c.sortedSets.zrank k m

section
variable {json : JsonLib} {under : Underflow} {c : ChronoCache Double} {env : CommandEnv}
  {command : RespValue}
  {key member : Bytes} {x : FiniteDouble}

theorem respond_zscore_finite (hc : c.isAcceptingOps = true)
    (h : command.Carries "ZSCORE" [key, member])
    (hx : c.sortedSets.zscore key member = some (.num (.finite x))) :
    EventLoop.respond json (doubleText under) env (some command) c =
      (.ok (RespSerializer.bulkString (toText (.num (.finite x)))), c) := by
  rw [respond_zscore hc h, hx]
  rfl

theorem keepsRanks_of_nearest (h : NearestToSixPlaces x) : KeepsRanks json under x := by
  intro env env' c key member zscore zadd t hc hx hzscore hreply hzadd k m
  rw [respond_zscore_finite hc hzscore hx] at hreply
  obtain rfl := bulkString_inj (Except.ok.inj hreply)
  rw [respond_zadd_ok hc hzadd ((stod_toText_iff under x).mpr h), SortedSetsAPI.zadd_again _ hx]

theorem nearest_of_keepsRanks (h : KeepsRanks json under x) : NearestToSixPlaces x := by
  rw [← stod_toText_iff under]
  have hstod := stod_toText under x
  generalize (⟨toBinary64 (places 6 x), isDouble_toBinary64 (abs_toBinary64_places_lt x)⟩ :
    FiniteDouble) = y at hstod
  rw [hstod]
  by_contra hne
  have hxy : Double.finite x ≠ Double.finite y := fun heq => hne (by rw [heq])
  let c : ChronoCache Double :=
    { unlogged Double with sortedSets := pairSets (.finite x) (min (.finite x) (.finite y)) }
  have hc : c.isAcceptingOps = true := rfl
  have hscore : c.sortedSets.zscore (lit "k") (lit "a") = some (.num (.finite x)) :=
    zscore_pairSets _ _
  have hzscore := carries_zscore [lit "k", lit "a"]
  have hzadd := carries_zadd [lit "k", toText (.num (.finite x)), lit "a"]
  have hranks := h quietEnv quietEnv c _ _ _ _ _ hc hscore hzscore
    (congrArg Prod.fst (respond_zscore_finite hc hzscore hscore)) hzadd (lit "k") (lit "a")
  rw [respond_zadd_ok hc hzadd hstod] at hranks
  exact zrank_pairSets_ne hxy hranks

/-- The members with these scores, wherever they are, get different replies. -/
def DistinctReplies (json : JsonLib) (under : Underflow) (x y : FiniteDouble) : Prop :=
  ∀ (env env' : CommandEnv) (c : ChronoCache Double) (key member key' member' : Bytes)
    (command command' : RespValue), c.isAcceptingOps = true →
      c.sortedSets.zscore key member = some (.num (.finite x)) →
    c.sortedSets.zscore key' member' = some (.num (.finite y)) →
    command.Carries "ZSCORE" [key, member] →
    command'.Carries "ZSCORE" [key', member'] →
    (EventLoop.respond json (doubleText under) env (some command) c).1 ≠
      (EventLoop.respond json (doubleText under) env' (some command') c).1

theorem distinctReplies_of_nearest {y : FiniteDouble} (hne : x ≠ y) (hx : NearestToSixPlaces x)
    (hy : NearestToSixPlaces y) : DistinctReplies json under x y := by
  intro env env' c key member key' member' command command' hc hscore hscore' hcarries hcarries' hsame
  rw [respond_zscore_finite hc hcarries hscore, respond_zscore_finite hc hcarries' hscore'] at hsame
  have htext := bulkString_inj (Except.ok.inj hsame)
  have hread := (stod_toText_iff under x).mpr hx
  rw [htext, (stod_toText_iff under y).mpr hy] at hread
  exact hne (Double.finite.inj (Score.num.inj (Except.ok.inj hread))).symm

/-- A stored score comes back from the text of its reply, as the `double` that the text is read
as, exactly when it is the `double` nearest to a number with six decimal places; and as
the exact number of the text exactly when it is such a number. Scores of the first kind get
different replies, and they are those that can be added again without a change of rank. -/
theorem scoreRoundTrip_iff (hc : c.isAcceptingOps = true) {s : Bytes}
    (hs : stod under s = .ok (.num (.finite x)))
    {zadd zscore : RespValue} (hzadd : zadd.Carries "ZADD" [key, s, member])
    (hzscore : zscore.Carries "ZSCORE" [key, member]) (env env' : CommandEnv) :
    ∃ t, (EventLoop.respond json (doubleText under) env' (some zscore)
        (EventLoop.respond json (doubleText under) env (some zadd) c).2).1 =
          .ok (RespSerializer.bulkString t) ∧
      (stod under t = .ok (.num (.finite x)) ↔ NearestToSixPlaces x) ∧
      (floatLiteral t = some (.number x) ↔ ∃ k : ℤ, (x : ℚ) = k / 10 ^ 6) ∧
      (KeepsRanks json under x ↔ NearestToSixPlaces x) ∧
      ∀ y, x ≠ y → NearestToSixPlaces x → NearestToSixPlaces y →
      DistinctReplies json under x y := by
  let c' : ChronoCache Double :=
    { c with sortedSets := (c.sortedSets.zadd key (.num (.finite x)) member).2 }
  have hc' : c'.isAcceptingOps = true := hc
  have hstored : c'.sortedSets.zscore key member = some (.num (.finite x)) :=
    c.sortedSets.zscore_zadd key member (.finite x)
  refine ⟨toText (.num (.finite x)), ?_, stod_toText_iff under x, floatLiteral_toText_iff x,
    ⟨nearest_of_keepsRanks, keepsRanks_of_nearest⟩, fun y => distinctReplies_of_nearest⟩
  rw [respond_zadd_ok hc hzadd hs]
  exact congrArg Prod.fst (respond_zscore_finite hc' hzscore hstored)

end

/-- The score 10. -/
theorem scoreRoundTrip_witness :
    ∃ t, (EventLoop.respond .reference (doubleText noUnderflow) quietEnv
        (some (.command [lit "ZSCORE", lit "k", lit "m"]))
        (EventLoop.respond .reference (doubleText noUnderflow) quietEnv
          (some (.command [lit "ZADD", lit "k", lit "10", lit "m"])) (unlogged Double)).2).1 =
          .ok (RespSerializer.bulkString t) ∧
      stod noUnderflow t = .ok (.num (.finite ten)) ∧ floatLiteral t = some (.number ten) ∧
      KeepsRanks .reference noUnderflow ten := by
  have hlongest : longest floatLiteral ((lit "10").dropWhile isSpace) =
    some (.number (((10 : ℕ) : ℚ) / ((10 : ℕ) : ℚ) ^ 0 * ((10 : ℕ) : ℚ) ^ (0 : ℤ))) := rfl
  have hstod : stod noUnderflow (lit "10") = .ok (.num (.finite ten)) :=
    stod_noUnderflow hlongest (by norm_num [ten])
  have hzadd := carries_zadd [lit "k", lit "10", lit "m"]
  have hzscore := carries_zscore [lit "k", lit "m"]
  have hplaces : (ten : ℚ) = (10000000 : ℤ) / 10 ^ 6 := by norm_num [ten]
  have hnearest : NearestToSixPlaces ten :=
    ⟨10000000, by rw [← hplaces]; exact (round_of_representable ten.2.1).symm⟩
  obtain ⟨t, hreply, hread, hexact, hranks, -⟩ :=
    scoreRoundTrip_iff (unlogged_accepting Double) hstod hzadd hzscore quietEnv quietEnv
  exact ⟨t, hreply, hread.mpr hnearest, hexact.mpr ⟨_, hplaces⟩, hranks.mpr hnearest⟩

/-- A power of two that six decimal places do not show. -/
def tiny : FiniteDouble := ⟨1 / 2 ^ 24, ⟨1, -24, by decide, by decide, by norm_num⟩, by
  rw [abs_of_pos (by norm_num)]
  exact lt_of_lt_of_le (by norm_num) (one_le_pow₀ (by norm_num))⟩

def zero : FiniteDouble := ⟨0, ⟨0, 0, by decide, by decide, by norm_num⟩, by
  rw [abs_zero]
  positivity⟩

/-- What is below half a unit of the sixth place is printed as zero. -/
theorem toText_small {x : FiniteDouble} (hlo : 0 ≤ (x : ℚ)) (hhi : (x : ℚ) * 10 ^ 6 < 1 / 2) :
    toText (.num (.finite x)) = lit "0.000000" := by
  have htext : toText (.num (.finite x)) = fixed 6 |(x : ℚ)| := if_neg (not_lt.mpr hlo)
  have hround : roundEven ((x : ℚ) * 10 ^ 6) = 0 := by
    apply roundEven_eq
    rw [Int.cast_zero, sub_zero, abs_of_nonneg (by positivity)]
    exact hhi
  rw [htext, fixed, abs_of_nonneg hlo, hround]
  decide

/-- The texts of `tiny` and of zero are the same. -/
theorem scoreRoundTrip_counterexample :
    let respond (words : List Bytes) (c : ChronoCache Double) :=
      EventLoop.respond .reference (doubleText noUnderflow) quietEnv (some (.command words)) c
    let c := (respond [lit "ZADD", lit "k", lit "0", lit "b"]
      (respond [lit "ZADD", lit "k", lit "0x1p-24", lit "a"] (unlogged Double)).2).2
    c.sortedSets.zscore (lit "k") (lit "a") = some (.num (.finite tiny)) ∧
      c.sortedSets.zscore (lit "k") (lit "b") = some (.num (.finite zero)) ∧ tiny ≠ zero ∧
      (respond [lit "ZSCORE", lit "k", lit "a"] c).1 =
        .ok (RespSerializer.bulkString (lit "0.000000")) ∧
      (respond [lit "ZSCORE", lit "k", lit "b"] c).1 =
        .ok (RespSerializer.bulkString (lit "0.000000")) ∧
      c.sortedSets.zrank (lit "k") (lit "a") = some 1 ∧
      (respond [lit "ZADD", lit "k", lit "0.000000", lit "a"] c).2.sortedSets.zrank (lit "k")
        (lit "a") = some 0 := by
  intro respond c
  have htiny : stod noUnderflow (lit "0x1p-24") = .ok (.num (.finite tiny)) := by
    have hlongest : longest floatLiteral ((lit "0x1p-24").dropWhile isSpace) =
      some (.number (((1 : ℕ) : ℚ) / ((16 : ℕ) : ℚ) ^ 0 * ((2 : ℕ) : ℚ) ^ (-24 : ℤ))) := rfl
    exact stod_noUnderflow hlongest (by norm_num [tiny])
  have hzero : stod noUnderflow (lit "0") = .ok (.num (.finite zero)) := by
    have hlongest : longest floatLiteral ((lit "0").dropWhile isSpace) =
      some (.number (((0 : ℕ) : ℚ) / ((10 : ℕ) : ℚ) ^ 0 * ((10 : ℕ) : ℚ) ^ (0 : ℤ))) := rfl
    exact stod_noUnderflow hlongest (by norm_num [zero])
  have hplaces : stod noUnderflow (lit "0.000000") = .ok (.num (.finite zero)) := by
    have hlongest : longest floatLiteral ((lit "0.000000").dropWhile isSpace) =
      some (.number (((0 : ℕ) : ℚ) / ((10 : ℕ) : ℚ) ^ 6 * ((10 : ℕ) : ℚ) ^ (0 : ℤ))) := rfl
    exact stod_noUnderflow hlongest (by norm_num [zero])
  have hadd {s member : Bytes} {x : FiniteDouble} {c : ChronoCache Double}
      (hc : c.isAcceptingOps = true)
      (hs : stod noUnderflow s = .ok (.num (.finite x))) :
      (respond [lit "ZADD", lit "k", s, member] c).2 =
        { c with sortedSets := (c.sortedSets.zadd (lit "k") (.num (.finite x)) member).2 } :=
    congrArg Prod.snd (respond_zadd_ok hc (carries_zadd [lit "k", s, member]) hs)
  have hscore {member : Bytes} {x : FiniteDouble} {c : ChronoCache Double}
      (hc : c.isAcceptingOps = true)
      (hx : c.sortedSets.zscore (lit "k") member = some (.num (.finite x))) :
      (respond [lit "ZSCORE", lit "k", member] c).1 =
        .ok (RespSerializer.bulkString (toText (.num (.finite x)))) :=
    congrArg Prod.fst (respond_zscore_finite hc (carries_zscore [lit "k", member]) hx)
  have hstate : c =
      { unlogged Double with sortedSets := pairSets (.finite tiny) (.finite zero) } := by
    have hfirst : (respond [lit "ZADD", lit "k", lit "0x1p-24", lit "a"] (unlogged Double)).2 = _ :=
      hadd (unlogged_accepting Double) htiny
    change (respond _ (respond _ (unlogged Double)).2).2 = _
    rw [hfirst, hadd rfl hzero]
    rfl
  clear_value c
  subst hstate
  have hfirst : (pairSets (Double.finite tiny) (.finite zero)).zscore (lit "k") (lit "a") =
      some (.num (.finite tiny)) :=
    zscore_pairSets _ _
  have hsecond : (pairSets (Double.finite tiny) (.finite zero)).zscore (lit "k") (lit "b") =
      some (.num (.finite zero)) := by
    rw [SortedSetsAPI.zscore_eq, (holds_pairSets _ _).memberScore]
    simp [pairScores, lit]
  refine ⟨hfirst, hsecond, ?_, ?_, ?_, ?_, ?_⟩
  · intro heq
    exact absurd (congrArg Subtype.val heq) (by norm_num [tiny, zero])
  · rw [hscore rfl hfirst, toText_small (by norm_num [tiny]) (by norm_num [tiny])]
  · rw [hscore rfl hsecond, toText_small (by norm_num [zero]) (by norm_num [zero])]
  · have hlt : Double.finite zero < .finite tiny := Double.finite_lt.mpr (by norm_num [tiny, zero])
    rw [zrank_pair (holds_pairSets _ _), if_pos hlt]
  · rw [hadd rfl hplaces]
    exact (zrank_pair (holds_pairSets_zadd _ _ _)).trans (by rw [if_neg (lt_irrefl _)])

end Chrono
