import Chrono.Cache.ReplayByKey
import Chrono.Server.CommandHandler

/-!
# The table of commands

The dispatcher is a lookup in a table of handlers, so that what holds of every
handler holds of `execute`. A handler reaches the cache through the operations it
requests, through `init` and through the sorted sets.
-/
namespace Chrono
open ChronoCache CommandHandler

def requestsOf (name : Bytes) (args : List RespValue) : List Op :=
  if name = lit "SET" then
    match args with
    | [key, value] => [.set key.strValue value.strValue none]
    | [key, value, opt, ms] =>
      if opt.strValue ≠ lit "EX" ∧ opt.strValue ≠ lit "ex" then []
      else match stoll ms.strValue with
        | .error _ => []
        | .ok ms => if ms ≤ 0 then [] else [.set key.strValue value.strValue (some ms)]
    | _ => []
  else if name = lit "GET" then
    match args with
    | [key] => [.get key.strValue]
    | _ => []
  else if name = lit "DEL" then args.map (fun arg => .del arg.strValue)
  else if name = lit "EXPIRE" then
    match args with
    | [key, ms] =>
      match stoll ms.strValue with
      | .error _ => []
      | .ok ms => if ms ≤ 0 then [] else [.expire key.strValue ms]
    | _ => []
  else if name = lit "PERSIST" then
    match args with
    | [key] => [.persist key.strValue]
    | _ => []
  else if name = lit "PTTL" then
    match args with
    | [key] => [.pttl key.strValue]
    | _ => []
  else []

theorem requestsOf_expire_error {key ms : RespValue} {e : Fault} (h : stoll ms.strValue = .error e) :
    requestsOf (lit "EXPIRE") [key, ms] = [] := by
  simp [requestsOf, lit, h]

theorem requestsOf_expire_ok {key ms : RespValue} {n : ℤ} (h : stoll ms.strValue = .ok n) :
    requestsOf (lit "EXPIRE") [key, ms] = if n ≤ 0 then [] else [.expire key.strValue n] := by
  simp [requestsOf, lit, h]

def requests (command : RespValue) : List Op :=
  match command.type, command.array with
  | .array, head :: args => requestsOf (toUpper head.strValue) args
  | _, _ => []

def isInit (command : RespValue) : Prop :=
  command.type = .array ∧ ∃ head args, command.array = head :: args ∧
    toUpper head.strValue = lit "INIT"

/-- A sorted-set command does not reach the map or the log. -/
def OnlySortedSets {α : Type} (c c' : ChronoCache α) : Prop :=
  c' = { c with sortedSets := c'.sortedSets }

namespace CommandHandler
variable {α : Type}

/-- The reply to a command whose name is not in the table. -/
def unknownCommand (name : Bytes) : Bytes :=
  RespSerializer.error (lit "ERR unknown command '" ++ name ++ lit "'")

/-- The dispatcher as a lookup. -/
def dispatch (table : List (Bytes × Handler α)) (head : RespValue) (args : List RespValue) :
    Action (ChronoCache α) Bytes :=
  match table.lookup (toUpper head.strValue) with
  | some handler => handler args
  | none => answer (unknownCommand head.strValue)

theorem dispatch_cons (name : Bytes) (handler : Handler α) (table : List (Bytes × Handler α))
    (head : RespValue) (args : List RespValue) :
    dispatch ((name, handler) :: table) head args =
      if toUpper head.strValue = name then handler args else dispatch table head args := by
  by_cases h : toUpper head.strValue = name
  · simp [dispatch, h]
  · have hbeq : (toUpper head.strValue == name) = false := beq_false_of_ne h
    simp [dispatch, List.lookup_cons, hbeq, h]

section
variable [LinearOrder α] (json : JsonLib) (text : DoubleText α) (env : CommandEnv)

def handlers : List (Bytes × Handler α) :=
  [(lit "INIT", cmdInit json env), (lit "PING", cmdPing), (lit "SET", cmdSet json env),
    (lit "GET", cmdGet env), (lit "DEL", cmdDel json env), (lit "EXPIRE", cmdExpire json env),
    (lit "PERSIST", cmdPersist json env), (lit "PTTL", cmdPttl env), (lit "ZADD", cmdZadd text),
    (lit "ZSCORE", cmdZscore text), (lit "ZREM", cmdZrem), (lit "ZRANK", cmdZrank)]

def commandNames : List Bytes :=
  ["INIT", "PING", "SET", "GET", "DEL", "EXPIRE", "PERSIST", "PTTL", "ZADD", "ZSCORE", "ZREM",
    "ZRANK"].map lit

theorem execute_array {command : RespValue} (htype : command.type = .array) {head : RespValue}
    {args : List RespValue} (harray : command.array = head :: args) :
    execute json text env command = dispatch (handlers json text env) head args := by
  unfold execute
  rw [htype, harray]
  simp only [handlers, dispatch_cons]
  rfl

theorem execute_named {command : RespValue} (htype : command.type = .array) {head : RespValue}
    {args : List RespValue} (harray : command.array = head :: args) {name : Bytes}
    (hname : toUpper head.strValue = name) {handler : Handler α}
    (hlookup : (handlers json text env).lookup name = some handler) :
    execute json text env command = handler args := by
  rw [execute_array json text env htype harray, dispatch, hname, hlookup]

theorem execute_invalid {command : RespValue} (h : ¬ (command.type = .array ∧ command.array ≠ [])) :
    execute json text env command =
      (answer (RespSerializer.error (lit "ERR invalid command format")) : Action
        (ChronoCache α) Bytes) := by
  unfold execute
  split
  · next htype harray => exact absurd ⟨htype, by simp [harray]⟩ h
  · rfl

theorem dispatch_cases (head : RespValue) (args : List RespValue) :
    (∃ handler, (toUpper head.strValue, handler) ∈ handlers json text env ∧
        dispatch (handlers json text env) head args = handler args) ∨
      toUpper head.strValue ∉ commandNames ∧
        dispatch (handlers json text env) head args = answer (unknownCommand head.strValue) := by
  unfold dispatch
  cases h : (handlers json text env).lookup (toUpper head.strValue) with
  | some handler =>
    obtain ⟨l₁, l₂, hl, -⟩ := List.lookup_eq_some_iff.mp h
    exact .inl ⟨handler, by rw [hl]; simp, rfl⟩
  | none =>
    refine .inr ⟨?_, rfl⟩
    intro hmem
    have hnames : commandNames = (handlers json text env).map Prod.fst := rfl
    rw [hnames] at hmem
    obtain ⟨p, hp, hname⟩ := List.mem_map.mp hmem
    have := List.lookup_eq_none_iff.mp h p hp
    simp [hname] at this

end

/-! ## Commands that do not reach the map -/

/-- A call that works on the cache once the gate has let it in. -/
def GuardedBy {ρ : Type} (f : Action (ChronoCache α) ρ) (g : ChronoCache α → ρ × ChronoCache α) :
    Prop :=
  ∀ c, f c = match c.checkAcceptingOps with
    | .error e => (.error e, c)
    | .ok _ => (.ok (g c).1, (g c).2)

theorem GuardedBy.gate_of_error {ρ : Type} {f : Action (ChronoCache α) ρ}
    {g : ChronoCache α → ρ × ChronoCache α} (h : GuardedBy f g) {c : ChronoCache α} {e : Fault}
    (he : (f c).1 = .error e) : c.checkAcceptingOps = .error e := by
  rw [h c] at he
  cases hgate : c.checkAcceptingOps with
  | error e' =>
    rw [hgate] at he
    exact congrArg Except.error (Except.error.inj he)
  | ok _ =>
    rw [hgate] at he
    cases he

def onSortedSets {ρ : Type} (f : SortedSetsAPI α → ρ × SortedSetsAPI α) (c : ChronoCache α) :
    ρ × ChronoCache α :=
  ((f c.sortedSets).1, { c with sortedSets := (f c.sortedSets).2 })

theorem guarded_zscore (key member : Bytes) :
    GuardedBy (fun c : ChronoCache α => (c.zscore key member, c))
      (fun c => (c.sortedSets.zscore key member, c)) := by
  intro c
  change (c.zscore key member, c) = _
  rw [zscore]
  cases c.checkAcceptingOps <;> rfl

section
variable [LinearOrder α]

theorem guarded_zadd (key : Bytes) (score : Score α) (member : Bytes) :
    GuardedBy (ChronoCache.zadd key score member)
      (onSortedSets (fun s => s.zadd key score member)) := by
  intro c
  unfold zadd
  cases c.checkAcceptingOps <;> rfl

theorem guarded_zrem (key member : Bytes) :
    GuardedBy (ChronoCache.zrem key member : Action (ChronoCache α) Bool)
      (onSortedSets (fun s => s.zrem key member)) := by
  intro c
  unfold zrem
  cases c.checkAcceptingOps <;> rfl

theorem guarded_zrank (key member : Bytes) :
    GuardedBy (fun c : ChronoCache α => (c.zrank key member, c))
      (fun c => (c.sortedSets.zrank key member, c)) := by
  intro c
  change (c.zrank key member, c) = _
  rw [zrank]
  cases c.checkAcceptingOps <;> rfl

end

section
variable (text : DoubleText α) {c : ChronoCache α}

theorem cmdPing_state (args : List RespValue) : (cmdPing args c).2 = c := by
  cases args <;> rfl

theorem onlySortedSets_cmdZscore (args : List RespValue) :
    OnlySortedSets c (cmdZscore text args c).2 := by
  rcases args with _ | ⟨key, _ | ⟨member, _ | ⟨extra, args⟩⟩⟩ <;> rfl

variable [LinearOrder α]

theorem onlySortedSets_cmdZrank (args : List RespValue) : OnlySortedSets c (cmdZrank args c).2 := by
  rcases args with _ | ⟨key, _ | ⟨member, _ | ⟨extra, args⟩⟩⟩ <;> rfl

theorem onlySortedSets_cmdZadd (args : List RespValue) :
    OnlySortedSets c (cmdZadd text args c).2 := by
  unfold cmdZadd
  split
  · rename_i key score member
    cases text.stod score.strValue with
    | error e => rfl
    | ok x =>
      simp only [call, zadd]
      cases c.checkAcceptingOps <;> rfl
  · rfl

theorem onlySortedSets_cmdZrem (args : List RespValue) : OnlySortedSets c (cmdZrem args c).2 := by
  unfold cmdZrem
  split
  · simp only [call, zrem]
    cases c.checkAcceptingOps <;> rfl
  · rfl

end

/-! ## What every handler respects -/

/-- An action that answers related caches alike and leaves them related. -/
def Respects {ρ : Type} (R : ChronoCache α → ChronoCache α → Prop) (f : Action (ChronoCache α) ρ) :
    Prop :=
  ∀ c d, R c d → (f c).1 = (f d).1 ∧ R (f c).2 (f d).2

/-- The operations of `ops` respect the relation in the environment of a command. -/
def OpsRespect (json : JsonLib) (env : CommandEnv) (ops : List Op)
    (R : ChronoCache α → ChronoCache α → Prop) : Prop :=
  ∀ op ∈ ops, ∀ i, Respects R (op.run json (env.calls i))

section
variable {R : ChronoCache α → ChronoCache α → Prop} {json : JsonLib} {text : DoubleText α}
  {env : CommandEnv}

theorem respects_answer (reply : Bytes) : Respects R (answer reply) := fun _ _ h => ⟨rfl, h⟩

theorem respects_throw (e : Fault) : Respects R
    (fun c => (Except.error e, c) : Action (ChronoCache α) Bytes) :=
  fun _ _ h => ⟨rfl, h⟩

theorem Respects.call {ρ : Type} {f : Action (ChronoCache α) ρ} (hf : Respects R f)
    (serialize : ρ → Bytes) :
    Respects R (call f serialize) := by
  intro c d h
  obtain ⟨hresult, hstate⟩ := hf c d h
  exact ⟨congrArg (Except.map serialize) hresult, hstate⟩

/-- A result is read back from the result of the operation. -/
theorem Respects.of_run {ρ : Type} {f : Action (ChronoCache α) ρ} {result : ρ → Result}
    (hinj : Function.Injective result) (hf : Respects R (fun c => ((f c).1.map result, (f c).2))) :
    Respects R f := by
  intro c d h
  obtain ⟨hresult, hstate⟩ := hf c d h
  refine ⟨?_, hstate⟩
  dsimp only at hresult
  cases hc : (f c).1 <;> cases hd : (f d).1 <;> simp [hc, hd, Except.map] at hresult ⊢
  · exact hresult
  · exact hinj hresult

theorem flag_injective : Function.Injective Result.flag := fun _ _ h => Result.flag.inj h

theorem value_injective : Function.Injective Result.value := fun _ _ h => Result.value.inj h

theorem millis_injective : Function.Injective Result.millis := fun _ _ h => Result.millis.inj h

theorem respects_cmdSet {args : List RespValue}
    (hop : OpsRespect json env (requestsOf (lit "SET") args) R) :
    Respects R (cmdSet json env args) := by
  rcases args with _ | ⟨key, _ | ⟨value, _ | ⟨opt, _ | ⟨ms, _ | ⟨extra, args⟩⟩⟩⟩⟩
  · exact respects_answer _
  · exact respects_answer _
  · have hset := hop (.set key.strValue value.strValue none) (by simp [requestsOf]) 0
    exact (Respects.of_run flag_injective hset).call _
  · exact respects_answer _
  · change OpsRespect json env (if opt.strValue ≠ lit "EX" ∧ opt.strValue ≠ lit "ex" then [] else _) R at hop
    rw [cmdSet]
    by_cases hopt : opt.strValue ≠ lit "EX" ∧ opt.strValue ≠ lit "ex"
    · rw [if_pos hopt]
      exact respects_answer _
    · rw [if_neg hopt] at hop ⊢
      cases hms : stoll ms.strValue with
      | error e => exact respects_throw _
      | ok n =>
        simp only [hms] at hop
        by_cases hn : n ≤ 0
        · simp only [if_pos hn]
          exact respects_answer _
        · simp only [if_neg hn] at hop ⊢
          have hset := hop _ (List.mem_singleton_self _) 0
          exact (Respects.of_run flag_injective hset).call _
  · exact respects_answer _

theorem respects_cmdGet {args : List RespValue}
    (hop : OpsRespect json env (requestsOf (lit "GET") args) R) :
    Respects R (cmdGet env args) := by
  rcases args with _ | ⟨key, _ | ⟨extra, args⟩⟩
  · exact respects_answer _
  · have hget := hop (.get key.strValue) (by simp [requestsOf, lit]) 0
    exact (Respects.of_run value_injective hget).call _
  · exact respects_answer _

theorem respects_delLoop {args : List RespValue}
    (hop : OpsRespect json env (args.map (fun arg => .del arg.strValue)) R) (i : ℕ) (count : ℤ) :
    Respects R (delLoop json env i count args) := by
  induction args generalizing i count with
  | nil => exact fun c d h => ⟨rfl, h⟩
  | cons arg args ih =>
    intro c d h
    have hdel : Respects R (ChronoCache.del json (env.calls i) arg.strValue) :=
      .of_run flag_injective (hop (.del arg.strValue) (by simp) i)
    obtain ⟨hresult, hstate⟩ := hdel c d h
    rcases hc : c.del json (env.calls i) arg.strValue with ⟨r, c'⟩
    rcases hd : d.del json (env.calls i) arg.strValue with ⟨r', d'⟩
    rw [hc, hd] at hresult hstate
    dsimp only at hresult hstate
    subst hresult
    simp only [delLoop, hc, hd]
    cases r with
    | error e => exact ⟨rfl, hstate⟩
    | ok removed => exact ih (fun op hmem => hop op (by simp_all)) _ _ c' d' hstate

theorem respects_cmdDel {args : List RespValue}
    (hop : OpsRespect json env (requestsOf (lit "DEL") args) R) :
    Respects R (cmdDel json env args) := by
  cases args with
  | nil => exact respects_answer _
  | cons arg args =>
    change OpsRespect json env ((arg :: args).map (fun arg => .del arg.strValue)) R at hop
    exact (respects_delLoop hop 0 0).call _

theorem respects_cmdExpire {args : List RespValue}
    (hop : OpsRespect json env (requestsOf (lit "EXPIRE") args) R) :
    Respects R (cmdExpire json env args) := by
  rcases args with _ | ⟨key, _ | ⟨ms, _ | ⟨extra, args⟩⟩⟩
  · exact respects_answer _
  · exact respects_answer _
  · rw [cmdExpire]
    cases hms : stoll ms.strValue with
    | error e => exact respects_throw _
    | ok n =>
      rw [requestsOf_expire_ok hms] at hop
      by_cases hn : n ≤ 0
      · simp only [if_pos hn]
        exact respects_answer _
      · simp only [if_neg hn] at hop ⊢
        have hexpire := hop _ (List.mem_singleton_self _) 0
        exact (Respects.of_run flag_injective hexpire).call _
  · exact respects_answer _

theorem respects_cmdPersist {args : List RespValue}
    (hop : OpsRespect json env (requestsOf (lit "PERSIST") args) R) :
    Respects R (cmdPersist json env args) := by
  rcases args with _ | ⟨key, _ | ⟨extra, args⟩⟩
  · exact respects_answer _
  · have hpersist := hop (.persist key.strValue) (by simp [requestsOf, lit]) 0
    exact (Respects.of_run flag_injective hpersist).call _
  · exact respects_answer _

theorem respects_cmdPttl {args : List RespValue}
    (hop : OpsRespect json env (requestsOf (lit "PTTL") args) R) :
    Respects R (cmdPttl env args) := by
  rcases args with _ | ⟨key, _ | ⟨extra, args⟩⟩
  · exact respects_answer _
  · have hpttl := hop (.pttl key.strValue) (by simp [requestsOf, lit]) 0
    exact (Respects.of_run millis_injective hpttl).call _
  · exact respects_answer _

theorem respects_cmdInit {args : List RespValue}
    (hinit : ∀ withReplay clock, Respects R (ChronoCache.init json withReplay env.consumed clock)) :
    Respects R (cmdInit json env args) := by
  rcases args with _ | ⟨arg, _ | ⟨extra, args⟩⟩
  · exact (hinit false _).call _
  · rw [cmdInit]
    split_ifs
    · exact respects_answer _
    · exact (hinit _ _).call _
  · exact respects_answer _

theorem respects_cmdPing (args : List RespValue) : Respects R (cmdPing args) := by
  cases args <;> exact respects_answer _

/-- Related caches have the same sorted sets behind the same gate, and stay related when both
take others. -/
def SetsRespect (R : ChronoCache α → ChronoCache α → Prop) : Prop :=
  ∀ c d, R c d → c.sortedSets = d.sortedSets ∧ c.isAcceptingOps = d.isAcceptingOps ∧
    ∀ api, R { c with sortedSets := api } { d with sortedSets := api }

theorem respects_onSortedSets (hsets : SetsRespect R) {ρ : Type} {f : Action (ChronoCache α) ρ}
    {g : SortedSetsAPI α → ρ × SortedSetsAPI α} (hf : GuardedBy f (onSortedSets g)) :
    Respects R f := by
  intro c d h
  obtain ⟨hsame, hgate, hboth⟩ := hsets c d h
  have hcheck : c.checkAcceptingOps = d.checkAcceptingOps := by simp only [checkAcceptingOps, hgate]
  rw [hf c, hf d, hcheck]
  cases d.checkAcceptingOps with
  | error e => exact ⟨rfl, h⟩
  | ok _ =>
    simp only [onSortedSets, hsame]
    exact ⟨trivial, hboth _⟩

theorem respects_cmdZscore (hsets : SetsRespect R) (args : List RespValue) :
    Respects R (cmdZscore text args) := by
  rcases args with _ | ⟨key, _ | ⟨member, _ | ⟨extra, args⟩⟩⟩
  · exact respects_answer _
  · exact respects_answer _
  · have hzscore : GuardedBy (fun c : ChronoCache α => (c.zscore key.strValue member.strValue, c))
        (onSortedSets fun s => (s.zscore key.strValue member.strValue, s)) := guarded_zscore _ _
    exact (respects_onSortedSets hsets hzscore).call _
  · exact respects_answer _

variable [LinearOrder α]

theorem respects_cmdZrank (hsets : SetsRespect R) (args : List RespValue) :
    Respects R (cmdZrank args) := by
  rcases args with _ | ⟨key, _ | ⟨member, _ | ⟨extra, args⟩⟩⟩
  · exact respects_answer _
  · exact respects_answer _
  · have hzrank : GuardedBy (fun c : ChronoCache α => (c.zrank key.strValue member.strValue, c))
        (onSortedSets fun s => (s.zrank key.strValue member.strValue, s)) := guarded_zrank _ _
    exact (respects_onSortedSets hsets hzrank).call _
  · exact respects_answer _

theorem respects_cmdZadd (hsets : SetsRespect R) (args : List RespValue) :
    Respects R (cmdZadd text args) := by
  rcases args with _ | ⟨key, _ | ⟨score, _ | ⟨member, _ | ⟨extra, args⟩⟩⟩⟩
  · exact respects_answer _
  · exact respects_answer _
  · exact respects_answer _
  · rw [cmdZadd]
    cases text.stod score.strValue with
    | error e => exact respects_throw _
    | ok x => exact (respects_onSortedSets hsets (guarded_zadd _ _ _)).call _
  · exact respects_answer _

theorem respects_cmdZrem (hsets : SetsRespect R) (args : List RespValue) :
    Respects R (cmdZrem args) := by
  rcases args with _ | ⟨key, _ | ⟨member, _ | ⟨extra, args⟩⟩⟩
  · exact respects_answer _
  · exact respects_answer _
  · exact (respects_onSortedSets hsets (guarded_zrem _ _)).call _
  · exact respects_answer _

/-- What the requested operations, `init` and a change of the sorted sets respect, a command
respects. -/
theorem respects_execute {command : RespValue} (hop : OpsRespect json env (requests command) R)
    (hinit : ∀ withReplay clock, Respects R (ChronoCache.init json withReplay env.consumed clock))
    (hsets : SetsRespect R) : Respects R (execute json text env command) := by
  by_cases h : command.type = .array ∧ command.array ≠ []
  · obtain ⟨htype, hne⟩ := h
    obtain ⟨head, args, harray⟩ := List.exists_cons_of_ne_nil hne
    have hreq : requests command = requestsOf (toUpper head.strValue) args := by
      unfold requests
      rw [htype, harray]
    rw [hreq] at hop
    rw [execute_array json text env htype harray]
    rcases dispatch_cases json text env head args with ⟨handler, hmem, heq⟩ | ⟨-, heq⟩
    · rw [heq]
      simp only [handlers, List.mem_cons, Prod.mk.injEq, List.not_mem_nil, or_false] at hmem
      rcases hmem with ⟨-, rfl⟩ | ⟨-, rfl⟩ | ⟨hn, rfl⟩ | ⟨hn, rfl⟩ | ⟨hn, rfl⟩ | ⟨hn, rfl⟩ | ⟨hn, rfl⟩ |
        ⟨hn, rfl⟩ | ⟨-, rfl⟩ | ⟨-, rfl⟩ | ⟨-, rfl⟩ | ⟨-, rfl⟩
      · exact respects_cmdInit hinit
      · exact respects_cmdPing args
      · exact respects_cmdSet (hn ▸ hop)
      · exact respects_cmdGet (hn ▸ hop)
      · exact respects_cmdDel (hn ▸ hop)
      · exact respects_cmdExpire (hn ▸ hop)
      · exact respects_cmdPersist (hn ▸ hop)
      · exact respects_cmdPttl (hn ▸ hop)
      · exact respects_cmdZadd hsets args
      · exact respects_cmdZscore hsets args
      · exact respects_cmdZrem hsets args
      · exact respects_cmdZrank hsets args
    · rw [heq]
      exact respects_answer _
  · rw [execute_invalid json text env h]
    exact respects_answer _

/-- The event loop respects what the handler does, and turns an exception into a reply. -/
theorem Respects.respond {command : RespValue} (h : Respects R (execute json text env command)) :
    Respects R (EventLoop.respond json text env (some command)) := by
  intro c d hcd
  obtain ⟨hresult, hstate⟩ := h c d hcd
  rcases hc : execute json text env command c with ⟨r, c'⟩
  rcases hd : execute json text env command d with ⟨r', d'⟩
  rw [hc, hd] at hresult hstate
  dsimp only at hresult hstate
  subst hresult
  rcases r with (⟨what⟩ | _) | reply <;> simp [EventLoop.respond, hc, hd, hstate]

end

/-! ## What every handler preserves -/

def Preserves (I : ChronoCache α → Prop) (f : Action (ChronoCache α) Bytes) : Prop :=
  ∀ c, I c → I (f c).2

variable {I : ChronoCache α → Prop} {json : JsonLib} {text : DoubleText α} {env : CommandEnv}

theorem preserves_answer (reply : Bytes) : Preserves I (answer reply) := fun _ h => h

def OpsPreserve (json : JsonLib) (ops : List Op) (I : ChronoCache α → Prop) : Prop :=
  ∀ op ∈ ops, ∀ env c, I c → I (op.run json env c).2

/-- The operations preserve the property in the environment of one command. -/
def OpsPreserveIn (json : JsonLib) (env : CommandEnv) (ops : List Op) (I : ChronoCache α → Prop) :
    Prop :=
  ∀ op ∈ ops, ∀ i c, I c → I (op.run json (env.calls i) c).2

theorem OpsPreserve.within {ops : List Op} (h : OpsPreserve json ops I) :
    OpsPreserveIn json env ops I :=
  fun op hop i c hc => h op hop (env.calls i) c hc

variable [LinearOrder α]

/-- What the requested operations, `init` and a change of the sorted sets preserve, a command
preserves. -/
theorem preserves_execute_within {command : RespValue}
    (hop : OpsPreserveIn json env (requests command) I)
    (hinit : ∀ withReplay clock c, I c → I (c.init json withReplay env.consumed clock).2)
    (hsets : ∀ (c : ChronoCache α) api, I c → I { c with sortedSets := api }) :
    Preserves I (execute json text env command) := by
  -- a property is the relation of a cache that has it to itself
  have hrespects : Respects (fun c d => c = d ∧ I c) (execute json text env command) := by
    apply respects_execute
    · rintro op hmem i c _ ⟨rfl, h⟩
      exact ⟨rfl, rfl, hop op hmem i c h⟩
    · rintro withReplay clock c _ ⟨rfl, h⟩
      exact ⟨rfl, rfl, hinit withReplay clock c h⟩
    · rintro c _ ⟨rfl, h⟩
      exact ⟨rfl, rfl, fun api => ⟨rfl, hsets c api h⟩⟩
  exact fun c h => (hrespects c c ⟨rfl, h⟩).2.2

theorem preserves_execute {command : RespValue} (hop : OpsPreserve json (requests command) I)
    (hinit : ∀ withReplay clock c, I c → I (c.init json withReplay env.consumed clock).2)
    (hsets : ∀ (c : ChronoCache α) api, I c → I { c with sortedSets := api }) :
    Preserves I (execute json text env command) :=
  preserves_execute_within hop.within hinit hsets

end CommandHandler
end Chrono
