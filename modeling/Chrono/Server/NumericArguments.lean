import Chrono.Server.Conversions
import Chrono.SortedSets.Agreement

/-!
# Numeric arguments

The handlers drop what follows the numeral that a conversion reads, so an argument need
not be a numeral to be accepted.
-/
namespace Chrono
open ChronoCache CommandHandler Library Library.Longest

/-! ## The commands -/

/-- The command has this name and these arguments. -/
structure RespValue.Carries (command : RespValue) (name : String) (args : List Bytes) : Prop where
  array : command.type = .array
  words : ∃ head rest, command.array = head :: rest ∧ toUpper head.strValue = lit name ∧
    rest.map RespValue.strValue = args

theorem RespValue.Carries.execute {α : Type} [LinearOrder α] {command : RespValue} {name : String}
    {args : List Bytes}
    (h : command.Carries name args) (json : JsonLib) (text : DoubleText α) (env : CommandEnv)
    {handler : Handler α}
    (hlookup : (handlers json text env).lookup (lit name) = some handler) :
    ∃ rest : List RespValue, rest.map RespValue.strValue = args ∧
      CommandHandler.execute json text env command = handler rest := by
  obtain ⟨htype, head, rest, harray, hname, hargs⟩ := h
  exact ⟨rest, hargs, execute_named json text env htype harray hname hlookup⟩

theorem carries_command {name : String} (h : toUpper (lit name) = lit name) (args : List Bytes) :
    (RespValue.command (lit name :: args)).Carries name args :=
  ⟨rfl, _, _, rfl, h, by simp [Function.comp_def, RespValue.strValue, RespValue.bulkString]⟩

theorem carries_set (args : List Bytes) :
    (RespValue.command (lit "SET" :: args)).Carries "SET" args :=
  carries_command (by decide) args

theorem carries_expire (args : List Bytes) :
    (RespValue.command (lit "EXPIRE" :: args)).Carries "EXPIRE" args :=
  carries_command (by decide) args

theorem carries_zadd (args : List Bytes) :
    (RespValue.command (lit "ZADD" :: args)).Carries "ZADD" args :=
  carries_command (by decide) args

section
variable {β γ : Type} {f : β → γ} {l : List β}

theorem pair_of_map {a b : γ} (h : l.map f = [a, b]) : ∃ x y, l = [x, y] ∧ f x = a ∧ f y = b := by
  obtain ⟨x, l', rfl, hx, h'⟩ := List.map_eq_cons_iff.mp h
  obtain ⟨y, rfl, hy⟩ := List.map_eq_singleton_iff.mp h'
  exact ⟨x, y, rfl, hx, hy⟩

theorem triple_of_map {a b c : γ} (h : l.map f = [a, b, c]) :
    ∃ x y z, l = [x, y, z] ∧ f x = a ∧ f y = b ∧ f z = c := by
  obtain ⟨x, l', rfl, hx, h'⟩ := List.map_eq_cons_iff.mp h
  obtain ⟨y, z, rfl, hy, hz⟩ := pair_of_map h'
  exact ⟨x, y, z, rfl, hx, hy, hz⟩

end

section
variable {α : Type}

/-- The `catch` of the event loop. -/
def EventLoop.caught (r : Except Fault Bytes × ChronoCache α) :
    Except Fault Bytes × ChronoCache α :=
  match r with
  | (.error (.exception what), c) => (.ok (RespSerializer.error (lit "ERR " ++ what)), c)
  | r => r

theorem refused_caught {c : ChronoCache α} {r : Except Fault Bytes × ChronoCache α} :
    Refused c (EventLoop.caught r) ↔ Refused c r := by
  rcases r with ⟨(what | _) | _, c'⟩
  · exact and_congr_left fun _ => iff_of_true rfl trivial
  · rfl
  · rfl

inductive TtlCommand where
  | set (key value : Bytes)
  | expire (key : Bytes)

namespace TtlCommand

/-- `command` is this command with the argument `s` for its TTL. -/
def Asked (t : TtlCommand) (command : RespValue) (s : Bytes) : Prop :=
  match t with
  | set key value =>
    ∃ opt, (opt = lit "EX" ∨ opt = lit "ex") ∧ command.Carries "SET" [key, value, opt, s]
  | expire key => command.Carries "EXPIRE" [key, s]

def use (json : JsonLib) (env : CommandEnv) (t : TtlCommand) (n : ℤ) :
    Action (ChronoCache α) Bytes :=
  match t with
  | set key value =>
    if n ≤ 0 then answer (RespSerializer.error (lit "ERR invalid expire time in 'SET' command"))
    else call (ChronoCache.set json (env.calls 0) key value (some n)) (fun _ => RespSerializer.ok)
  | expire key =>
    if n ≤ 0 then answer (RespSerializer.error (lit "ERR invalid expire time in 'EXPIRE' command"))
    else call (ChronoCache.expire json (env.calls 0) key n) flag

variable {json : JsonLib} {env : CommandEnv}

theorem refused_use (t : TtlCommand) {n : ℤ} (h : n ≤ 0) (c : ChronoCache α) :
    Refused c (t.use json env n c) := by
  cases t <;> simp only [use, if_pos h] <;> exact refused_error _

variable [LinearOrder α] {text : DoubleText α}

theorem respond (t : TtlCommand) {command : RespValue} {s : Bytes} (h : t.Asked command s)
    (c : ChronoCache α) :
    EventLoop.respond json text env (some command) c =
      EventLoop.caught (match stoll s with
        | .error e => (.error e, c)
        | .ok n => t.use json env n c) := by
  change EventLoop.caught (execute json text env command c) = _
  congr 1
  cases t with
  | set key value =>
    obtain ⟨opt, hopt, hcarries⟩ := h
    obtain ⟨rest, hargs, hrun⟩ := hcarries.execute json text env rfl
    obtain ⟨a₁, r₁, rfl, rfl, h₁⟩ := List.map_eq_cons_iff.mp hargs
    obtain ⟨a₂, a₃, a₄, rfl, rfl, rfl, rfl⟩ := triple_of_map h₁
    rw [hrun, cmdSet]
    have hex : ¬ (a₃.strValue ≠ lit "EX" ∧ a₃.strValue ≠ lit "ex") := by
      rintro ⟨hupper, hlower⟩
      exact hopt.elim hupper hlower
    dsimp only
    rw [if_neg hex]
    cases stoll a₄.strValue with
    | error e => rfl
    | ok n => rfl
  | expire key =>
    obtain ⟨rest, hargs, hrun⟩ := RespValue.Carries.execute h json text env rfl
    obtain ⟨a₁, a₂, rfl, rfl, rfl⟩ := pair_of_map hargs
    rw [hrun, cmdExpire]
    cases stoll a₂.strValue with
    | error e => rfl
    | ok n => rfl

end TtlCommand

theorem respond_zadd [LinearOrder α] {json : JsonLib} {text : DoubleText α} {env : CommandEnv}
    {command : RespValue}
    {key s member : Bytes} (h : command.Carries "ZADD" [key, s, member]) (c : ChronoCache α) :
    EventLoop.respond json text env (some command) c =
      EventLoop.caught (match text.stod s with
        | .error e => (.error e, c)
        | .ok score => call (ChronoCache.zadd key score member) flag c) := by
  change EventLoop.caught (execute json text env command c) = _
  congr 1
  obtain ⟨rest, hargs, hrun⟩ := h.execute json text env rfl
  obtain ⟨a₁, a₂, a₃, rfl, rfl, rfl, rfl⟩ := triple_of_map hargs
  rw [hrun, cmdZadd]
  cases text.stod a₂.strValue with
  | error e => rfl
  | ok score => rfl

/-- A server that accepts operations and logs none, with nothing in it. -/
def unlogged (α : Type) [LinearOrder α] : ChronoCache α := { create true [] with state := .ready }

theorem unlogged_accepting (α : Type) [LinearOrder α] : (unlogged α).isAcceptingOps = true := rfl

end

/-! ## The law -/

section
variable {α : Type} [LinearOrder α] {json : JsonLib} {text : DoubleText α}

/-- The law for a TTL: the command uses the number if the argument is one in full and in range,
and else is refused. -/
def TtlCommand.Obeys (json : JsonLib) (text : DoubleText α) (t : TtlCommand) (s : Bytes) : Prop :=
  ∀ (env : CommandEnv) (c : ChronoCache α) (command : RespValue), t.Asked command s →
    (∀ n, Denotes s n → InInt64 n →
      EventLoop.respond json text env (some command) c = EventLoop.caught (t.use json env n c)) ∧
    ((¬ ∃ n, Denotes s n ∧ InInt64 n) → Refused c (EventLoop.respond json text env (some command) c))

theorem TtlCommand.exists_asked (t : TtlCommand) (s : Bytes) : ∃ command, t.Asked command s := by
  cases t with
  | set key value => exact ⟨_, lit "EX", .inl rfl, carries_set [key, value, lit "EX", s]⟩
  | expire key => exact ⟨_, carries_expire [key, s]⟩

theorem TtlCommand.not_refused_use (t : TtlCommand) {n : ℤ} (h : 0 < n) (env : CommandEnv) :
    ¬ Refused (unlogged α) (t.use json env n (unlogged α)) := by
  have hconfigured : Configured (unlogged α) := fun hlog => by cases hlog
  cases t with
  | set key value =>
    let f : Action (ChronoCache α) Bool := ChronoCache.set json (env.calls 0) key value (some n)
    have hrun : (Op.set key value (some n)).run json (env.calls 0) (unlogged α) =
      ((f (unlogged α)).1.map .flag, (f (unlogged α)).2) := rfl
    simp only [use, if_neg (not_le.mpr h)]
    rw [(gated_op hconfigured _ (by simp) .flag hrun).refused_call fun _ => rfl, unlogged_accepting]
    decide
  | expire key =>
    let f : Action (ChronoCache α) Bool := ChronoCache.expire json (env.calls 0) key n
    have hrun : (Op.expire key n).run json (env.calls 0) (unlogged α) =
      ((f (unlogged α)).1.map .flag, (f (unlogged α)).2) := rfl
    have hpos : ∀ k ttl, Op.expire key n = .expire k ttl → 0 < ttl :=
      fun _ _ hop => (Op.expire.inj hop).2 ▸ h
    simp only [use, if_neg (not_le.mpr h)]
    rw [(gated_op hconfigured _ hpos .flag hrun).refused_call fun b => by cases b <;> rfl,
      unlogged_accepting]
    decide

/-- The law holds of an argument that is a number in full and in range, and of one that starts
with no positive number in range. -/
theorem TtlCommand.obeys_iff (t : TtlCommand) (s : Bytes) : t.Obeys json text s ↔
    (∃ n, Denotes s n ∧ InInt64 n) ∨
      ¬ ∃ n, Leads decimalInteger (s.dropWhile isSpace) n ∧ 0 < n ∧ n < 2 ^ 63 := by
  constructor
  · intro h
    by_contra hbad
    obtain ⟨hpart, hleads⟩ := not_or.mp hbad
    obtain ⟨n, hn, hpos, hlt⟩ := not_not.mp hleads
    obtain ⟨command, hasked⟩ := t.exists_asked s
    have hrefused := (h quietEnv (unlogged α) command hasked).2 hpart
    rw [t.respond hasked, stoll_eq_ok_iff.mpr ⟨hn, by omega, hlt⟩, refused_caught] at hrefused
    exact t.not_refused_use hpos quietEnv hrefused
  · intro h env c command hasked
    rw [t.respond hasked]
    constructor
    · intro n hn hrange
      have hleads := leads_of_full decimalInteger_space (decimalInteger_iff_denotes.mpr hn)
      rw [stoll_eq_ok_iff.mpr ⟨hleads, hrange⟩]
    · intro hpart
      have hnone := h.resolve_left hpart
      rw [refused_caught]
      cases hs : stoll s with
      | error e =>
        obtain ⟨what, rfl, -⟩ := plain_stoll hs
        exact ⟨trivial, rfl⟩
      | ok n =>
        obtain ⟨hleads, -, hlt⟩ := stoll_eq_ok_iff.mp hs
        exact t.refused_use (not_lt.mp fun hpos => hnone ⟨n, hleads, hpos, hlt⟩) c

end

section
variable {json : JsonLib} {under : Underflow}

/-- The law for a score, whose number `value` makes a `double`. -/
def ZaddObeys (json : JsonLib) (under : Underflow) (value : ℚ → ℚ) (s : Bytes) : Prop :=
  ∀ (env : CommandEnv) (c : ChronoCache Double) (command : RespValue) (key member : Bytes),
    command.Carries "ZADD" [key, s, member] →
    (∀ l, floatLiteral s = some l → ∃ x, l.Means value x ∧
      EventLoop.respond json (doubleText under) env (some command) c =
        EventLoop.caught (call (ChronoCache.zadd key x member) flag c)) ∧
    (floatLiteral s = none →
      Refused c (EventLoop.respond json (doubleText under) env (some command) c))

theorem refused_zadd_stod {env : CommandEnv} {c : ChronoCache Double} {command : RespValue}
    {key s member : Bytes}
    (hcarries : command.Carries "ZADD" [key, s, member]) {e : Fault}
    (he : stod under s = .error e) :
    Refused c (EventLoop.respond json (doubleText under) env (some command) c) := by
  have hstod : (doubleText under).stod s = .error e := he
  rw [respond_zadd hcarries, hstod, refused_caught, stod_error he]
  exact ⟨trivial, rfl⟩

theorem not_refused_zadd (key member : Bytes) (x : Score Double) :
    ¬ Refused (unlogged Double) (call (ChronoCache.zadd key x member) flag (unlogged Double)) := by
  rw [(gated_of_gate (guarded_zadd key x member)).refused_call fun b => by cases b <;> rfl,
    unlogged_accepting]
  decide

/-- The score that an empty set stores. -/
theorem zadd_unlogged_inj {key member : Bytes} {x y : Double}
    (h : EventLoop.caught (call (ChronoCache.zadd key (.num x) member) flag (unlogged Double)) =
      EventLoop.caught (call (ChronoCache.zadd key (.num y) member) flag (unlogged Double))) :
    x = y := by
  have hstate (z : Double) : (EventLoop.caught (call (ChronoCache.zadd key (.num z) member) flag
      (unlogged Double))).2.sortedSets.zscore key member = some (.num z) :=
    SortedSetsAPI.zscore_zadd SortedSetsAPI.empty key member z
  have hscore := hstate x
  rw [h, hstate y] at hscore
  exact (Score.num.inj (Option.some.inj hscore)).symm

variable {value : ℚ → ℚ} {s : Bytes}

/-- A text that is no literal is refused, so it starts with none that is accepted. -/
theorem ZaddObeys.not_leads (h : ZaddObeys json under value s) (hs : floatLiteral s = none) :
    ¬ ∃ l, Leads floatLiteral (s.dropWhile isSpace) l ∧ l.InRange under := by
  rintro ⟨l, hl, hrange⟩
  obtain ⟨x, hx⟩ := hrange.exists_means
  have hstod : (doubleText under).stod s = .ok x := stod_eq_ok_iff.mpr ⟨l, hl, hrange, hx⟩
  have hcarries := carries_zadd [lit "k", s, lit "m"]
  have hrefused := (h quietEnv (unlogged Double) _ _ _ hcarries).2 hs
  rw [respond_zadd hcarries, hstod, refused_caught] at hrefused
  exact not_refused_zadd _ _ _ hrefused

/-- A literal is used, so it is accepted, and it makes the same score either way. -/
theorem ZaddObeys.accepted (h : ZaddObeys json under value s) {l : FloatLiteral}
    (hs : floatLiteral s = some l) :
    l.InRange under ∧ ∃ x, l.Means toBinary64 x ∧ l.Means value x := by
  have hcarries := carries_zadd [lit "k", s, lit "m"]
  obtain ⟨x, hx, heq⟩ := (h quietEnv (unlogged Double) _ _ _ hcarries).1 l hs
  have hconvert : stod under s = l.convert under :=
    stod_of_literal under hs (dropWhile_isSpace floatLiteral_space hs)
  cases hstod : stod under s with
  | error e =>
    have hrefused : Refused (unlogged Double)
        (EventLoop.respond json (doubleText under) quietEnv _ _) :=
      refused_zadd_stod hcarries hstod
    rw [heq, refused_caught] at hrefused
    exact absurd hrefused (not_refused_zadd _ _ _)
  | ok y =>
    obtain ⟨hrange, hy⟩ := convert_eq_ok_iff.mp (hconvert.symm.trans hstod)
    refine ⟨hrange, ?_⟩
    cases l with
    | nan => exact ⟨.nan, rfl, rfl⟩
    | infinity negative => exact ⟨_, rfl, rfl⟩
    | number q =>
      obtain ⟨x', rfl, hx'⟩ := hx
      obtain ⟨y', rfl, hy'⟩ := hy
      have hstod' : (doubleText under).stod s = .ok (.num (.finite y')) := hstod
      rw [respond_zadd hcarries, hstod'] at heq
      obtain rfl := Double.finite.inj (zadd_unlogged_inj heq)
      exact ⟨_, ⟨y', rfl, hy'⟩, y', rfl, hx'⟩

theorem zaddObeys_of_literal {l : FloatLiteral} (hs : floatLiteral s = some l)
    (hrange : l.InRange under)
    {x : Score Double} (hx : l.Means toBinary64 x) (hvalue : l.Means value x) :
    ZaddObeys json under value s := by
  intro env c command key member hcarries
  have hstod : (doubleText under).stod s = .ok x :=
    stod_eq_ok_iff.mpr ⟨l, leads_of_full floatLiteral_space hs, hrange, hx⟩
  constructor
  · intro l' hl'
    obtain rfl := Option.some.inj (hs.symm.trans hl')
    exact ⟨x, hvalue, by rw [respond_zadd hcarries, hstod]⟩
  · intro hnone
    rw [hs] at hnone
    cases hnone

theorem zaddObeys_of_not_leads (hs : floatLiteral s = none)
    (hnone : ¬ ∃ l, Leads floatLiteral (s.dropWhile isSpace) l ∧ l.InRange under) :
    ZaddObeys json under value s := by
  intro env c command key member hcarries
  constructor
  · intro l hl
    rw [hs] at hl
    cases hl
  · intro _
    cases hstod : stod under s with
    | error e => exact refused_zadd_stod hcarries hstod
    | ok x =>
      obtain ⟨l, hl, hrange, -⟩ := stod_eq_ok_iff.mp hstod
      exact absurd ⟨l, hl, hrange⟩ hnone

theorem zaddObeys_iff (value : ℚ → ℚ) (s : Bytes) : ZaddObeys json under value s ↔
    (∃ l, floatLiteral s = some l ∧ l.InRange under ∧ ∃ x, l.Means toBinary64 x ∧ l.Means value x) ∨
      floatLiteral s = none ∧
        ¬ ∃ l, Leads floatLiteral (s.dropWhile isSpace) l ∧ l.InRange under := by
  constructor
  · intro h
    cases hs : floatLiteral s with
    | none => exact .inr ⟨rfl, h.not_leads hs⟩
    | some l => exact .inl ⟨l, rfl, h.accepted hs⟩
  · rintro (⟨l, hs, hrange, x, hx, hvalue⟩ | ⟨hs, hnone⟩)
    · exact zaddObeys_of_literal hs hrange hx hvalue
    · exact zaddObeys_of_not_leads hs hnone

theorem zaddObeys_rounded_iff (s : Bytes) : ZaddObeys json under toBinary64 s ↔
    (∃ l, floatLiteral s = some l ∧ l.InRange under) ∨
      floatLiteral s = none ∧
        ¬ ∃ l, Leads floatLiteral (s.dropWhile isSpace) l ∧ l.InRange under := by
  rw [zaddObeys_iff]
  refine or_congr_left (exists_congr fun l => and_congr_right fun _ => ?_)
  constructor
  · exact fun h => h.1
  · intro h
    obtain ⟨x, hx⟩ := h.exists_means
    exact ⟨h, x, hx, hx⟩

theorem zaddObeys_exact_iff (s : Bytes) : ZaddObeys json under id s ↔
    (∃ l x, floatLiteral s = some l ∧ l.InRange under ∧ l.Means id x) ∨
      floatLiteral s = none ∧
        ¬ ∃ l, Leads floatLiteral (s.dropWhile isSpace) l ∧ l.InRange under := by
  have hkeeps {l : FloatLiteral} {x : Score Double} (h : l.Means id x) : l.Means toBinary64 x := by
    cases l with
    | nan => exact h
    | infinity negative => exact h
    | number q =>
      obtain ⟨y, rfl, hy⟩ := h
      have hself : toBinary64 y = y := Rounding.round_of_representable y.2.1
      have hq : (y : ℚ) = q := hy
      exact ⟨y, rfl, by rw [← hq, hself]⟩
  rw [zaddObeys_iff]
  refine or_congr_left (exists_congr fun l => ?_)
  constructor
  · rintro ⟨hs, hrange, x, -, hx⟩
    exact ⟨x, hs, hrange, hx⟩
  · rintro ⟨x, hs, hrange, hx⟩
    exact ⟨hs, hrange, x, hkeeps hx, hx⟩

end

/-- The law for numeric arguments holds exactly of those that are numerals in full and in range,
and of those that start with no numeral that is accepted: for a TTL a positive integer in
range, and for a score a literal in range. -/
theorem numericArguments_iff (json : JsonLib) (under : Underflow) (s : Bytes) :
    (∀ t : TtlCommand, t.Obeys json (doubleText under) s ↔
      (∃ n, Denotes s n ∧ InInt64 n) ∨
        ¬ ∃ n, Leads decimalInteger (s.dropWhile isSpace) n ∧ 0 < n ∧ n < 2 ^ 63) ∧
    (ZaddObeys json under toBinary64 s ↔
      (∃ l, floatLiteral s = some l ∧ l.InRange under) ∨
        floatLiteral s = none ∧
          ¬ ∃ l, Leads floatLiteral (s.dropWhile isSpace) l ∧ l.InRange under) ∧
    (ZaddObeys json under id s ↔
      (∃ l x, floatLiteral s = some l ∧ l.InRange under ∧ l.Means id x) ∨
        floatLiteral s = none ∧
          ¬ ∃ l, Leads floatLiteral (s.dropWhile isSpace) l ∧ l.InRange under) :=
  ⟨fun t => t.obeys_iff s, zaddObeys_rounded_iff s, zaddObeys_exact_iff s⟩

def noUnderflow : Underflow := ⟨fun _ => false, fun _ h => by cases h⟩

/-- The score 10. -/
def ten : FiniteDouble := ⟨10, ⟨10, 0, by decide, by decide, by norm_num⟩, by
  rw [abs_of_pos (by norm_num)]
  exact lt_of_lt_of_le (by norm_num) (pow_le_pow_right₀ (by norm_num) (by norm_num : 4 ≤ 1024))⟩

theorem stod_noUnderflow {s : Bytes} {q : ℚ}
    (h : longest floatLiteral (s.dropWhile isSpace) = some (.number q))
    {x : FiniteDouble} (hx : q = x) : stod noUnderflow s = .ok (.num (.finite x)) :=
  stod_exact (hx ▸ h) rfl

/-- `10s` is taken for 10 by all three commands. -/
theorem numericArguments_counterexample :
    let text := doubleText noUnderflow
    let respond (words : List Bytes) :=
      EventLoop.respond .reference text quietEnv (some (.command words)) (unlogged Double)
    (¬ ∃ n, Denotes (lit "10s") n) ∧ floatLiteral (lit "10s") = none ∧
      (respond [lit "SET", lit "k", lit "v", lit "EX", lit "10s"]).1 = .ok RespSerializer.ok ∧
      (respond [lit "SET", lit "k", lit "v", lit "EX", lit "10s"]).2.hashMap (lit "k") =
        some ⟨lit "v", some (deadlineAfter 0 10)⟩ ∧
      (respond [lit "EXPIRE", lit "k", lit "10s"]).1 = .ok (RespSerializer.integer 0) ∧
      (respond [lit "ZADD", lit "k", lit "10s", lit "m"]).1 = .ok (RespSerializer.integer 1) ∧
      (respond [lit "ZADD", lit "k", lit "10s", lit "m"]).2.sortedSets.zscore (lit "k") (lit "m") =
        some (.num (.finite ten)) := by
  intro text respond
  have hlongest : longest floatLiteral ((lit "10s").dropWhile isSpace) =
    some (.number (((10 : ℕ) : ℚ) / ((10 : ℕ) : ℚ) ^ 0 * ((10 : ℕ) : ℚ) ^ (0 : ℤ))) := rfl
  have hread : stod noUnderflow (lit "10s") = .ok (.num (.finite ten)) :=
    stod_noUnderflow hlongest (by norm_num [ten])
  have hstod : text.stod (lit "10s") = .ok (.num (.finite ten)) := hread
  have hzadd : respond [lit "ZADD", lit "k", lit "10s", lit "m"] =
      EventLoop.caught (call (ChronoCache.zadd (lit "k") (.num (.finite ten)) (lit "m")) flag
        (unlogged Double)) := by
    refine (respond_zadd (carries_zadd [lit "k", lit "10s", lit "m"]) (unlogged Double)).trans ?_
    rw [hstod]
  refine ⟨?_, rfl, rfl, rfl, rfl, ?_, ?_⟩
  · rintro ⟨n, hn⟩
    cases (decimalInteger_iff_denotes.mpr hn)
  · rw [hzadd]
    rfl
  · rw [hzadd]
    exact SortedSetsAPI.zscore_zadd SortedSetsAPI.empty (lit "k") (lit "m") (Double.finite ten)

end Chrono
