import DeferredWork.Proofs.Fleet.Holding
import DeferredWork.Proofs.Routine.Play
import DeferredWork.Proofs.Shift.Basic
import DeferredWork.Proofs.Store.Rows

set_option autoImplicit false

/-!
# Tokens and jobs in flight

An engine on duty makes one call after the other: it goes through acquisition cycles, and runs the
jobs that it has dispatched, in any order.  Between two calls others do to the store what they like,
and the time shows what it likes (`Duty.Reachable`).  What is shown is that tokens change hands and
are never lost: in each call the tokens that are given out are the one in hand and those of the jobs
in flight (`ScopeTokens.Covers`), and a call ends with none in hand.  Since a job is dispatched with
the token of its scope, the scopes whose tokens are given out are those of the jobs in flight, each
of one job only (`Duty.Reachable.tokens_match_jobs_in_flight`).
-/

namespace DeferredWork

variable {ε : Type → Type} {α β : Type}

/-! ## Tokens change hands -/

/-- The job that a pool accepted. -/
def Exchange.accepted? : Exchange (Call ε) → Option Dispatched
  | ⟨.dispatch d, true⟩ => some d
  | _ => none

theorem Event.accepted?_own (exchange : Exchange (Call ε)) :
    (Event.own exchange).accepted? = exchange.accepted? := by
  obtain ⟨question, answer⟩ := exchange
  cases question with
  | dispatch d => cases answer <;> rfl
  | _ => rfl

theorem Event.filterMap_accepted? (trace : List (Event ε)) :
    trace.filterMap accepted? = (trace.filterMap own?).filterMap Exchange.accepted? := by
  rw [List.filterMap_filterMap]
  refine List.filterMap_congr fun event _ => ?_
  cases event with
  | own exchange => exact accepted?_own exchange
  | _ => rfl

/-- A call goes by the token in hand: none is taken on top of it, no other is given back, and a job
is dispatched with it. -/
def Grip.Minds (grip : Grip) : Call ε β → Prop
  | .takeToken _ => grip.token = none
  | .giveToken scope => grip.token = some scope
  | .dispatch d => d.token = grip.token
  | _ => True

namespace ScopeTokens

/-- What the exchange says of the tokens is true. -/
def tells (tokens : ScopeTokens) : Exchange (Call ε) → Bool
  | ⟨.takeToken scope, taken⟩ => taken == !tokens.isHeld scope
  | _ => true

/-- The tokens after a conversation, if all that it says of them is true. -/
def follow? (tokens : ScopeTokens) : List (Exchange (Call ε)) → Option ScopeTokens
  | [] => some tokens
  | exchange :: talk => if tokens.tells exchange then (tokens.after exchange).follow? talk else none

/-- The tokens that are given out are the one in hand and those that the jobs carry. -/
def Covers (tokens : ScopeTokens) (grip : Grip) (jobs : List Dispatched) : Prop :=
  tokens.held.Perm (grip.token.toList ++ jobs.filterMap Dispatched.token)

/-- The account of the tokens stays right through a call that minds the token in hand. -/
theorem Covers.after {tokens : ScopeTokens} {grip : Grip} {jobs : List Dispatched}
    {exchange : Exchange (Call ε)} (h : tokens.Covers grip jobs)
    (hminds : grip.Minds exchange.question) (htrue : tokens.tells exchange = true) :
    (tokens.after exchange).Covers (grip.after exchange) (jobs ++ exchange.accepted?.toList) := by
  have hsame : tokens.Covers grip (jobs ++ []) := by rwa [List.append_nil]
  obtain ⟨question, answer⟩ := exchange
  cases question with
  | store call =>
    cases call with
    | apply ws => cases answer <;> exact hsame
    | _ => exact hsame
  | takeToken scope =>
    cases answer with
    | false => exact hsame
    | true =>
      have hnone : grip.token = none := hminds
      have hfree : tokens.take? scope ≠ none := by
        intro htaken
        rw [tells, take?_eq_none_iff.1 htaken] at htrue
        cases htrue
      obtain ⟨taken, htaken⟩ := Option.ne_none_iff_exists'.1 hfree
      have hheld : taken.held = scope :: tokens.held := by
        unfold take? at htaken
        split at htaken <;> cases htaken
        rfl
      have hafter : tokens.after ⟨.takeToken (ε := ε) scope, true⟩ = taken := by
        change (tokens.take? scope).getD tokens = taken
        rw [htaken, Option.getD_some]
      rw [Covers, hnone] at hsame
      rw [Covers, hafter, hheld]
      exact hsame.cons scope
  | giveToken scope =>
    have hsome : grip.token = some scope := hminds
    rw [Covers, hsome] at hsame
    have hback := hsame.erase scope
    rwa [Option.toList_some, List.singleton_append, List.erase_cons_head] at hback
  | dispatch d =>
    cases answer with
    | false => exact hsame
    | true =>
      -- The token goes from the hand to the job.
      have hcarried : d.token = grip.token := hminds
      have hjob : [d].filterMap Dispatched.token = grip.token.toList := by
        rw [← hcarried, List.filterMap_cons]
        cases d.token <;> rfl
      have hmoved : tokens.held.Perm (jobs.filterMap Dispatched.token ++ grip.token.toList) :=
        h.trans List.perm_append_comm
      rw [← hjob, ← List.filterMap_append] at hmoved
      exact hmoved
  | _ => exact hsame

/-- The account of the tokens stays right through a conversation whose calls mind the token in hand. -/
theorem Covers.follow {conduct : Conduct ε} {first : Grip} {post : List (Exchange (Call ε)) → α → Prop}
    (hminds : ∀ {talk : List (Exchange (Call ε))} {β : Type} {call : Call ε β},
      conduct.rules.allows talk call → (first.through talk).Minds call)
    {r rest : Routine ε α} {before talk : List (Exchange (Call ε))} {tokens tokens' : ScopeTokens}
    {jobs : List Dispatched} (hkeeps : r.Keeps conduct.rules post before) (hleads : r.Leads talk rest)
    (hpossible : ∀ exchange ∈ talk, exchange.IsPlausible) (hfollow : tokens.follow? talk = some tokens')
    (h : tokens.Covers (first.through before) jobs) :
    tokens'.Covers (first.through (before ++ talk)) (jobs ++ talk.filterMap Exchange.accepted?) := by
  induction hleads generalizing before tokens jobs with
  | stop r =>
    cases hfollow
    rwa [List.filterMap_nil, List.append_nil, List.append_nil]
  | @ask _ call answer next talk rest _ ih =>
    obtain ⟨hallowed, hnext⟩ := hkeeps
    obtain ⟨hfirst, hrest⟩ := List.forall_mem_cons.1 hpossible
    obtain ⟨htrue, hfollow⟩ := Option.ite_none_right_eq_some.1 hfollow
    have hafter := h.after (hminds hallowed) htrue
    rw [← Grip.through_append_singleton] at hafter
    have hsplit : List.filterMap Exchange.accepted? (⟨call, answer⟩ :: talk) =
        (Exchange.accepted? ⟨call, answer⟩).toList ++ talk.filterMap Exchange.accepted? := by
      rw [List.filterMap_cons]
      cases Exchange.accepted? ⟨call, answer⟩ <;> rfl
    rw [List.append_cons, hsplit, ← List.append_assoc jobs]
    exact ih (hnext answer hfirst) hrest hfollow hafter

end ScopeTokens

namespace Engine

/-- A cycle minds the token in hand. -/
theorem minds_of_acquiring {owner : Owner} {talk : List (Exchange (Call ε))} {call : Call ε β}
    (h : (acquiring owner).rules.allows talk call) : (Grip.ofCycle talk).Minds call := by
  cases call with
  | takeToken scope => exact h
  | giveToken scope => exact h
  | dispatch d => exact Dispatches.token h
  | _ => trivial

/-- A worker minds the token in hand. -/
theorem minds_of_executing {engine : Engine ε} {P : List Job → Write → Prop} {d : Dispatched}
    {talk : List (Exchange (Call ε))} {call : Call ε β}
    (h : (engine.executing P d).rules.allows talk call) :
    ((Grip.ofDispatched d).through talk).Minds call := by
  cases call with
  | takeToken scope => exact h.elim
  | giveToken scope => exact h
  | dispatch d => exact h.elim
  | _ => trivial

end Engine

/-! ## Scopes during a call -/

section Scopes

variable {scopeOf : JobId → Option ScopeId}

/-- Each job has the scope that goes with its name. -/
def JobTable.HasScopes (t : JobTable) (scopeOf : JobId → Option ScopeId) : Prop :=
  ∀ row ∈ t.rows, row.exclusivityScope = scopeOf row.id

/-- The write gives no job another scope than the one that goes with its name. -/
def Write.FitsScopes (scopeOf : JobId → Option ScopeId) : Write → Prop
  | .insert job => job.exclusivityScope = scopeOf job.id
  | .update job _ => job.exclusivityScope = scopeOf job.id
  | _ => True

theorem JobTable.HasScopes.write {t t' : JobTable} {w : Write} {left : Option Job}
    (h : t.HasScopes scopeOf) (hw : t.write w = .ok (t', left)) (hfits : w.FitsScopes scopeOf) :
    t'.HasScopes scopeOf := by
  obtain ⟨c, hc, rfl, -⟩ := write_eq_ok_iff.1 hw
  have hput : ∀ {new : Job}, new.exclusivityScope = scopeOf new.id → (t.put new).HasScopes scopeOf := by
    intro new hnew row hrow
    rcases mem_put.1 hrow with rfl | ⟨hmem, -⟩
    · exact hnew
    · exact h row hmem
  cases hc with
  | insert free => exact hput hfits
  | update found met => exact hput hfits
  | @lock id before owner expiry now found unlocked alone => exact hput (h before (mem_of_find? found))
  | delete found met => exact fun row hrow => h row (mem_erase.1 hrow).1
  | raise => exact h
  | resolve => exact h

theorem JobTable.HasScopes.writeAll {t t' : JobTable} {ws : List Write} {rows : List Job}
    (h : t.HasScopes scopeOf) (hws : t.writeAll ws = .ok (t', rows))
    (hfits : ∀ w ∈ ws, w.FitsScopes scopeOf) : t'.HasScopes scopeOf := by
  induction ws generalizing t rows with
  | nil =>
    cases hws
    exact h
  | cons w ws ih =>
    obtain ⟨t₁, left, rest, hw, hrest, -⟩ := writeAll_cons_eq_ok_iff.1 hws
    obtain ⟨hhead, htail⟩ := List.forall_mem_cons.1 hfits
    exact ih (h.write hw hhead) hrest htail

/-- During the call, whoever else writes gives no job another scope. -/
def Store.KeepsScopes (s : Store) (trace : List (Event ε)) : Prop :=
  ∃ scopeOf, s.jobs.HasScopes scopeOf ∧
    ∀ batch ∈ trace.filterMap Event.others?, ∀ w ∈ batch, w.FitsScopes scopeOf

/-- If nobody else writes during the call, jobs keep their scopes. -/
theorem Store.keepsScopes_of_alone {trace : List (Event ε)} (s : Store)
    (alone : trace.filterMap Event.others? = []) : s.KeepsScopes trace := by
  refine ⟨fun id => (s.jobs.find? id).bind Job.exclusivityScope, fun row hrow => ?_, ?_⟩
  · dsimp only
    rw [JobTable.find?_eq_some_of_mem hrow, Option.bind_some]
  · rw [alone]
    exact List.forall_mem_nil _

/-- What a cycle hands in gives no job another scope. -/
theorem Engine.Acquires.fitsScopes {owner : Owner} {talk : List (Exchange (Call ε))} {ws : List Write}
    (h : Engine.Acquires owner talk ws)
    (htold : ∀ row ∈ talk.flatMap Exchange.told, row.exclusivityScope = scopeOf row.id) :
    ∀ w ∈ ws, w.FitsScopes scopeOf := by
  cases h with
  | lock polled token => exact List.forall_mem_singleton.2 trivial
  | @release _ row locked expiry holds told named owned =>
    exact List.forall_mem_singleton.2 (htold locked told)

/-- A cycle dispatches each job with the token of its scope. -/
theorem Engine.Dispatches.token_eq_scope {owner : Owner} {talk : List (Exchange (Call ε))}
    {d : Dispatched} (h : Engine.Dispatches owner talk d)
    (htold : ∀ row ∈ talk.flatMap Exchange.told, row.exclusivityScope = scopeOf row.id) :
    d.token = d.job.exclusivityScope := by
  have hjob := htold d.job h.mem_told
  cases h with
  | @reread earlier row expiry _ holds named owned carried =>
    have hrow : row.exclusivityScope = scopeOf row.id := by
      refine htold row ?_
      rw [List.flatMap_append]
      exact List.mem_append_left _ holds.told
    rw [carried, hrow, hjob, named]

/-- If jobs keep their scopes during a cycle, each is dispatched with the token of its scope. -/
theorem Engine.token_eq_scope_of_accepted {owner : Owner}
    {post : List (Exchange (Call ε)) → α → Prop} {r rest : Routine ε α} {s s' : Store}
    {before : List (Exchange (Call ε))} {trace : List (Event ε)}
    (hkeeps : r.Keeps (acquiring owner).rules post before) (runs : Routine.Runs s r trace s' rest)
    (hscopes : s.jobs.HasScopes scopeOf)
    (htold : ∀ row ∈ before.flatMap Exchange.told, row.exclusivityScope = scopeOf row.id)
    (hothers : ∀ batch ∈ trace.filterMap Event.others?, ∀ w ∈ batch, w.FitsScopes scopeOf) :
    ∀ d ∈ trace.filterMap Event.accepted?, d.token = d.job.exclusivityScope := by
  induction runs generalizing before with
  | stop s r => exact List.forall_mem_nil _
  | @own _ call answer next s s₁ s' trace rest answered _ ih =>
    obtain ⟨hallowed, hnext⟩ := hkeeps
    have hstored : s₁.jobs.HasScopes scopeOf := by
      obtain ⟨rows, hws⟩ := answered.commits.writeAll
      refine hscopes.writeAll hws ?_
      cases hbatch : Event.batch? (.own ⟨call, answer⟩) with
      | none => exact List.forall_mem_nil _
      | some ws =>
        obtain ⟨_, hexchange⟩ := Event.batch?_own_eq_some_iff.1 hbatch
        cases hexchange
        rw [Option.toList_some, List.flatten_singleton]
        exact Engine.Acquires.fitsScopes hallowed htold
    have hknown : ∀ row ∈ (before ++ [(⟨call, answer⟩ : Exchange (Call ε))]).flatMap Exchange.told,
        row.exclusivityScope = scopeOf row.id := by
      rw [List.flatMap_append, List.flatMap_singleton]
      refine List.forall_mem_append.2 ⟨htold, fun row hrow => ?_⟩
      exact hscopes row (answered.mem_rows hrow).1
    have hpossible := answered.plausible
    have hlater := ih (hnext answer hpossible) hstored hknown hothers
    rw [List.filterMap_cons]
    split
    · exact hlater
    · rename_i d haccepted
      refine List.forall_mem_cons.2 ⟨?_, hlater⟩
      cases Event.accepted?_eq_some_iff.1 haccepted
      exact Engine.Dispatches.token_eq_scope hallowed htold
  | other accepted _ ih =>
    obtain ⟨hhead, htail⟩ := List.forall_mem_cons.1 hothers
    exact ih hkeeps (hscopes.writeAll (Store.writeAll_of_apply accepted) hhead) htold htail
  | reach _ ih => exact ih hkeeps hscopes htold hothers

end Scopes

/-! ## An engine on duty -/

/-- An engine between two calls: the store as it is, the tokens that the engine has given out, and the
jobs that it has dispatched and not yet run to their end. -/
structure Duty where
  store : Store
  tokens : ScopeTokens
  inFlight : List Dispatched

namespace Duty

/-- An engine that begins its duty on a store. -/
def start (s : Store) : Duty := ⟨s, .allFree, []⟩

/-- The scopes in which jobs in flight run exclusively. -/
def scopes (duty : Duty) : List ScopeId := duty.inFlight.filterMap fun d => d.job.exclusivityScope

/-- What happens next to an engine on duty.  It goes through a cycle, whose pool takes or refuses jobs
as it likes, or runs a job in flight, however that ends; or others do to the store what they like.
Others may also write during a call, if only no job changes its scope during a cycle. -/
inductive Step (engine : Engine ε) : Duty → Duty → Prop
  | acquire {duty : Duty} {batch : Nat} {trace : List (Event ε)} {s' : Store} {tokens' : ScopeTokens}
      {rest : Routine ε (Except AcquisitionError CycleReport)}
      (runs : Routine.Runs duty.store (engine.acquire batch) trace s' rest)
      (ended : rest.isOver = true) (scopes : duty.store.KeepsScopes trace)
      (tokens : duty.tokens.follow? (trace.filterMap Event.own?) = some tokens') :
      Step engine duty ⟨s', tokens', duty.inFlight ++ trace.filterMap Event.accepted?⟩
  | run {duty : Duty} {d : Dispatched} {trace : List (Event ε)} {s' : Store} {tokens' : ScopeTokens}
      {rest : Routine ε (Except TransactionError ExecutionOutcome)} (waits : d ∈ duty.inFlight)
      (runs : Routine.Runs duty.store (engine.runJob d) trace s' rest) (ended : rest.isOver = true)
      (tokens : duty.tokens.follow? (trace.filterMap Event.own?) = some tokens') :
      Step engine duty ⟨s', tokens', duty.inFlight.erase d⟩
  | meanwhile (duty : Duty) (s' : Store) : Step engine duty { duty with store := s' }

/-- What becomes of an engine on duty. -/
inductive Reachable (engine : Engine ε) : Duty → Prop
  | start (s : Store) : Reachable engine (.start s)
  | step {duty duty' : Duty} (h : Reachable engine duty) (hstep : Step engine duty duty') :
      Reachable engine duty'

variable {engine : Engine ε} {duty duty' : Duty}

/-- The tokens that are given out are those of the jobs in flight, each of which carries the token of
its scope. -/
structure IsSound (duty : Duty) : Prop where
  covers : duty.tokens.Covers {} duty.inFlight
  token_eq_scope : ∀ d ∈ duty.inFlight, d.token = d.job.exclusivityScope

theorem IsSound.acquire {batch : Nat} {trace : List (Event ε)} {s' : Store} {tokens' : ScopeTokens}
    {rest : Routine ε (Except AcquisitionError CycleReport)} (h : duty.IsSound)
    (runs : Routine.Runs duty.store (engine.acquire batch) trace s' rest)
    (ended : rest.isOver = true) (hscopes : duty.store.KeepsScopes trace)
    (hfollow : duty.tokens.follow? (trace.filterMap Event.own?) = some tokens') :
    IsSound ⟨s', tokens', duty.inFlight ++ trace.filterMap Event.accepted?⟩ := by
  have hkeeps := engine.keeps_acquire batch
  obtain ⟨⟨_, hempty⟩, -⟩ := runs.kept hkeeps ended
  constructor
  · have hcovers := ScopeTokens.Covers.follow Engine.minds_of_acquiring hkeeps runs.leads
      runs.isPlausible hfollow h.covers
    rw [ScopeTokens.Covers, List.nil_append, hempty, ← Event.filterMap_accepted?] at hcovers
    exact hcovers
  · obtain ⟨scopeOf, hstored, hothers⟩ := hscopes
    have hnew := Engine.token_eq_scope_of_accepted hkeeps runs hstored (List.forall_mem_nil _) hothers
    exact List.forall_mem_append.2 ⟨h.token_eq_scope, hnew⟩

theorem IsSound.run {d : Dispatched} {trace : List (Event ε)} {s' : Store} {tokens' : ScopeTokens}
    {rest : Routine ε (Except TransactionError ExecutionOutcome)} (h : duty.IsSound)
    (waits : d ∈ duty.inFlight) (runs : Routine.Runs duty.store (engine.runJob d) trace s' rest)
    (ended : rest.isOver = true)
    (hfollow : duty.tokens.follow? (trace.filterMap Event.own?) = some tokens') :
    IsSound ⟨s', tokens', duty.inFlight.erase d⟩ := by
  have hkeeps := Engine.keeps_runJob (d := d) Transaction.carries_anything engine.handlersObey_anything
  obtain ⟨⟨_, hempty⟩, hallowed⟩ := runs.kept hkeeps ended
  have hnone : (trace.filterMap Event.own?).filterMap Exchange.accepted? = [] := by
    refine List.filterMap_eq_nil_iff.2 fun exchange hmem => ?_
    obtain ⟨earlier, hquestion⟩ := hallowed exchange hmem
    obtain ⟨question, answer⟩ := exchange
    cases question with
    | dispatch d => exact hquestion.elim
    | _ => rfl
  constructor
  · have hstart : duty.tokens.Covers (.ofDispatched d) (duty.inFlight.erase d) := by
      have hperm := (List.perm_cons_erase waits).filterMap Dispatched.token
      have htoken : (d :: duty.inFlight.erase d).filterMap Dispatched.token =
          d.token.toList ++ (duty.inFlight.erase d).filterMap Dispatched.token := by
        rw [List.filterMap_cons]
        cases d.token <;> rfl
      rw [htoken] at hperm
      exact h.covers.trans hperm
    have hcovers := ScopeTokens.Covers.follow Engine.minds_of_executing hkeeps runs.leads
      runs.isPlausible hfollow hstart
    rw [ScopeTokens.Covers, List.nil_append, hempty, hnone, List.append_nil] at hcovers
    exact hcovers
  · exact fun other hmem => h.token_eq_scope other (List.mem_of_mem_erase hmem)

theorem Reachable.isSound (h : Reachable engine duty) : duty.IsSound := by
  induction h with
  | start s => exact ⟨.nil, List.forall_mem_nil _⟩
  | step h hstep ih =>
    cases hstep with
    | acquire runs ended scopes tokens => exact ih.acquire runs ended scopes tokens
    | run waits runs ended tokens => exact ih.run waits runs ended tokens
    | meanwhile s' => exact ⟨ih.covers, ih.token_eq_scope⟩

/-- In whatever an engine on duty goes through, the scopes whose tokens are given out are exactly those
in which jobs in flight run exclusively, and no two jobs in flight run exclusively in one scope. -/
theorem Reachable.tokens_match_jobs_in_flight (h : Reachable engine duty) :
    (∀ scope, duty.tokens.isHeld scope = true ↔
      ∃ d ∈ duty.inFlight, d.job.exclusivityScope = some scope) ∧ duty.scopes.Nodup := by
  have hscopes : duty.tokens.held.Perm duty.scopes := by
    have hsame : duty.inFlight.filterMap Dispatched.token = duty.scopes :=
      List.filterMap_congr h.isSound.token_eq_scope
    rw [← hsame]
    exact h.isSound.covers
  refine ⟨fun scope => ?_, hscopes.nodup_iff.1 duty.tokens.nodup⟩
  rw [ScopeTokens.isHeld, List.contains_iff_mem, hscopes.mem_iff]
  exact List.mem_filterMap

/-! ## Playing a cycle -/

/-- The duty after a cycle that is played. -/
def cycle (engine : Engine ε) (duty : Duty) (circumstances : Circumstances) (batch : Nat) : Duty :=
  let played := (engine.acquire batch).play circumstances duty.store
  ⟨played.2.2, (duty.tokens.follow? played.1).getD duty.tokens,
    duty.inFlight ++ played.1.filterMap Exchange.accepted?⟩

theorem Reachable.cycle (h : Reachable engine duty) (circumstances : Circumstances) {batch : Nat}
    (hdone : ((engine.acquire batch).play circumstances duty.store).2.1.isSome = true)
    (htrue : (duty.tokens.follow? ((engine.acquire batch).play circumstances duty.store).1).isSome =
      true) : Reachable engine (duty.cycle engine circumstances batch) := by
  obtain ⟨report, hreport⟩ := Option.isSome_iff_exists.1 hdone
  obtain ⟨tokens', htokens⟩ := Option.isSome_iff_exists.1 htrue
  have hstep := Step.acquire (Routine.runs_play circumstances hreport) rfl
    (duty.store.keepsScopes_of_alone (Routine.others?_own _)) (by rw [Routine.own?_own]; exact htokens)
  rw [Event.filterMap_accepted?, Routine.own?_own] at hstep
  rw [Duty.cycle, htokens]
  exact h.step hstep

/-- A stored job that runs exclusively in the scope "desk". -/
def desk (name : String) : Job := { Job.mail name with scope := some ⟨"desk"⟩ }

/-- Of two jobs of one scope one is dispatched.  It keeps the token of the scope, even if both jobs
are cancelled before it runs. -/
theorem cancelled_job_keeps_token :
    ∃ duty : Duty, duty.store.jobs.rows = [] ∧ duty.inFlight.length = 1 ∧
      Reachable (Engine.ofPair true) duty ∧
      (∀ scope, duty.tokens.isHeld scope = true ↔
        ∃ d ∈ duty.inFlight, d.job.exclusivityScope = some scope) ∧ duty.scopes.Nodup := by
  let first := (start (.ofTwo (desk "first") (desk "second"))).cycle (Engine.ofPair true) .early 2
  have hfirst : first.Reachable (Engine.ofPair true) :=
    (Reachable.start _).cycle .early (by decide +kernel) (by decide +kernel)
  have hcancelled := hfirst.step (.meanwhile first .empty)
  exact ⟨_, rfl, by decide +kernel, hcancelled, hcancelled.tokens_match_jobs_in_flight⟩

end Duty

end DeferredWork
