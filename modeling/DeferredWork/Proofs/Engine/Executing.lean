import DeferredWork.Proofs.Engine.Grip
import DeferredWork.Proofs.Engine.Handing

set_option autoImplicit false

/-!
# How an engine executes

A worker that runs a dispatched job hands in the execution of the job, or its release after
contention, or, once it has counted a failure, the record of that failure (`Engine.Concludes`).  It does so
before it gives back the token of the job, and once one of its batches was accepted it hands in no
more (`Engine.keeps_runJob`).
-/

namespace DeferredWork

variable {ε : Type → Type} {α β : Type}

/-- No batch of the conversation was accepted. -/
def NoneAccepted (talk : List (Exchange (Call ε))) : Prop :=
  ∀ exchange ∈ talk, Event.batch? (.own exchange) = none

theorem NoneAccepted.next {talk : List (Exchange (Call ε))} {exchange : Exchange (Call ε)}
    (h : NoneAccepted talk) (hnone : Event.batch? (.own exchange) = none) :
    NoneAccepted (talk ++ [exchange]) :=
  List.forall_mem_append.2 ⟨h, List.forall_mem_singleton.2 hnone⟩

theorem Event.batch?_of_isInner {call : Call ε β} (h : call.isInner = true) (answer : β) :
    Event.batch? (.own ⟨call, answer⟩) = none := by
  cases call with
  | store call =>
    cases call with
    | get id => rfl
    | _ => cases h
  | dispatch _ | takeToken _ | giveToken _ => cases h
  | _ => rfl

/-- The worker counts a failure of its job. -/
def Exchange.countsFailure : Exchange (Call ε) → Bool
  | ⟨.count .failed _, _⟩ => true
  | _ => false

theorem Exchange.countsFailure_of_isInner {call : Call ε β} (h : call.isInner = true) (answer : β) :
    Exchange.countsFailure ⟨call, answer⟩ = false := by
  cases call with
  | count counter n => cases h
  | _ => rfl

namespace Engine

/-- What a worker does to the job that it runs: what the handler staged, each write allowed by the
rows that were found, with the end of the row that was dispatched; or, to a row that is locked in the
name of the engine still, the release or, once a failure was counted, its record. -/
inductive Concludes (engine : Engine ε) (P : List Job → Write → Prop) (d : Dispatched)
    (talk : List (Exchange (Call ε))) : List Write → Prop
  | execution {row : Job} {now : Instant} {completion : Completion} {own ending : List Write}
      (unfailed : talk.any Exchange.countsFailure = false) (clock : talk.head? = some ⟨.clock, now⟩)
      (told : row ∈ talk.flatMap Exchange.told) (named : row.id = d.job.id)
      (current : row.revision = d.job.revision) (owned : row.isLockedBy engine.owner = true)
      (allowed : ∀ w ∈ own, P (talk.flatMap Exchange.told) w)
      (ends : row.Ends now completion ending) :
      Concludes engine P d talk (own ++ ending)
  | release {row : Job} (unfailed : talk.any Exchange.countsFailure = false)
      (told : row ∈ talk.flatMap Exchange.told) (named : row.id = d.job.id)
      (owned : row.isLockedBy engine.owner = true) :
      Concludes engine P d talk [.update row.released (.exactly row.revision)]
  | failure {row : Job} {error : HandlerError} {now : Instant} {ws : List Write}
      (counted : talk.any Exchange.countsFailure = true) (clock : ⟨.clock, now⟩ ∈ talk)
      (told : row ∈ talk.flatMap Exchange.told) (named : row.id = d.job.id)
      (owned : row.isLockedBy engine.owner = true)
      (fails : row.Fails engine.backoff (engine.handlers.resolve d.job.kind) error now ws) :
      Concludes engine P d talk ws

/-- What a worker that runs a dispatched job may hand in: a first batch, before it has given the
token of the job back. -/
structure Executes (engine : Engine ε) (P : List Job → Write → Prop) (d : Dispatched)
    (talk : List (Exchange (Call ε))) (ws : List Write) : Prop where
  first : NoneAccepted talk
  token : ((Grip.ofDispatched d).through talk).token = d.token
  concludes : engine.Concludes P d talk ws

/-- How an engine conducts itself when it runs a dispatched job. -/
def executing (engine : Engine ε) (P : List Job → Write → Prop) (d : Dispatched) : Conduct ε where
  apply := Executes engine P d
  giveToken talk scope := ((Grip.ofDispatched d).through talk).token = some scope

/-- The handlers of the engine obey a discipline, whatever they find. -/
def HandlersObey (engine : Engine ε) (R : List Job → Staged → Prop) : Prop :=
  ∀ kind handler, engine.handlers.resolve kind = some handler →
    ∀ job seen, (handler.handle job).run.Obeys (.ofStaged R) seen

theorem HandlersObey.of_stagesNothing {engine : Engine ε} {R : List Job → Staged → Prop}
    (h : ∀ kind handler, engine.handlers.resolve kind = some handler → handler.StagesNothing) :
    engine.HandlersObey R :=
  fun kind handler hresolve job seen =>
    (h kind handler hresolve job seen).of_stricter fun _ _ hnone => hnone.elim

/-- All handlers obey a discipline that forbids nothing. -/
theorem handlersObey_anything (engine : Engine ε) : engine.HandlersObey fun _ _ => True := by
  intro kind handler _ job seen
  generalize (handler.handle job).run = x
  induction x generalizing seen with
  | done a => exact .done a
  | abort reason => exact .abort reason
  | ask q next ih => exact .ask (by cases q <;> trivial) fun b _ => ih b _

/-- The handlers of the engine are fair. -/
def HasFairHandlers (engine : Engine ε) (terms : Terms) : Prop :=
  ∀ kind handler, engine.handlers.resolve kind = some handler → handler.IsFair terms

/-! ## The token of a worker -/

variable {d : Dispatched}

/-- A worker still carries the token of its job. -/
def Carries (d : Dispatched) (talk : List (Exchange (Call ε))) : Prop :=
  ((Grip.ofDispatched d).through talk).token = d.token

theorem Carries.next {talk : List (Exchange (Call ε))} {exchange : Exchange (Call ε)}
    (h : Carries d talk)
    (hfree : (((Grip.ofDispatched d).through talk).after exchange).token =
      ((Grip.ofDispatched d).through talk).token) :
    Carries d (talk ++ [exchange]) := by
  rw [Carries, Grip.through_append_singleton, hfree]
  exact h

/-- A worker has handed in nothing yet and still carries the token of its job, and it has counted a
failure or has not. -/
structure Unsettled (d : Dispatched) (failed : Bool) (talk : List (Exchange (Call ε))) : Prop where
  first : NoneAccepted talk
  token : Carries d talk
  failed : talk.any Exchange.countsFailure = failed

theorem Unsettled.next {failed failed' : Bool} {talk : List (Exchange (Call ε))}
    {exchange : Exchange (Call ε)} (h : Unsettled d failed talk)
    (hnone : Event.batch? (.own exchange) = none)
    (hfree : (((Grip.ofDispatched d).through talk).after exchange).token =
      ((Grip.ofDispatched d).through talk).token)
    (hfailed : (failed || exchange.countsFailure) = failed') :
    Unsettled d failed' (talk ++ [exchange]) := by
  refine ⟨h.first.next hnone, h.token.next hfree, ?_⟩
  rw [List.any_append, h.failed, List.any_cons, List.any_nil, Bool.or_false, hfailed]

/-- The transactions of a worker leave the token in its hand. -/
theorem frame_unsettled (failed : Bool) :
    Transaction.Frame (ε := ε) (Unsettled d failed) (Carries d) := by
  refine ⟨?_, ?_, Unsettled.token, ?_, ?_⟩
  · intro β talk call answer hinner h
    have hgrip := Grip.after_of_isInner hinner ((Grip.ofDispatched d).through talk) answer
    refine h.next (Event.batch?_of_isInner hinner answer) (congrArg Grip.token hgrip) ?_
    rw [Exchange.countsFailure_of_isInner hinner, Bool.or_false]
  · intro talk ws e h
    exact h.next rfl rfl (Bool.or_false failed)
  · intro talk ws rows h
    exact h.token.next rfl
  · intro talk incident hcarries
    exact hcarries.next rfl

/-! ## Transactions of a worker -/

variable {engine : Engine ε} {P : List Job → Write → Prop}

/-- A transaction of a worker keeps the worker's conduct if what it hands in concludes the job. -/
theorem keeps_transact {failed : Bool} {command : Command ε α} {talk : List (Exchange (Call ε))}
    (h : Unsettled d failed talk)
    (hconcludes : ∀ now calls ws, Transaction.HandsIn command now calls ws →
      (talk ++ ⟨.clock, now⟩ :: calls).any Exchange.countsFailure = failed →
      engine.Concludes P d (talk ++ ⟨.clock, now⟩ :: calls) ws) :
    (engine.transact command).Keeps (executing engine P d).rules
      (Transaction.Frame.close (Unsettled d failed) (Carries d)) talk :=
  (frame_unsettled failed).keeps_run_handsIn engine.limit
    (fun now calls ws hbefore hhands =>
      ⟨hbefore.first, hbefore.token, hconcludes now calls ws hhands hbefore.failed⟩) h

/-- The rows that a transaction was told of are among those of the conversation. -/
theorem told_subset (talk : List (Exchange (Call ε))) (exchange : Exchange (Call ε))
    (calls : List (Exchange (Call ε))) :
    calls.flatMap Exchange.told ⊆ (talk ++ exchange :: calls).flatMap Exchange.told := by
  rw [List.flatMap_append, List.flatMap_cons]
  exact fun row hrow => List.mem_append_right _ (List.mem_append_right _ hrow)

variable {R : List Job → Staged → Prop}

/-- Unless an execution was committed, nothing of it was accepted. -/
theorem keeps_execute (hcarries : Transaction.Carries R P) (hhandlers : engine.HandlersObey R) :
    (engine.execute d.job).Keeps (executing engine P d).rules
      (fun talk result => Carries d talk ∧
        ((∀ completion, result ≠ .ok (.committed completion)) → Unsettled d false talk)) [] := by
  have hstart : Unsettled (ε := ε) d false [] := ⟨List.forall_mem_nil _, rfl, rfl⟩
  unfold execute
  split
  · exact ⟨hstart.token, fun _ => hstart⟩
  · rename_i handler hresolve
    refine Interaction.keeps_bind.2
      ((keeps_transact hstart fun now calls ws hhands hunfailed => ?_).mono ?_)
    · obtain ⟨row, htold, hname, hcurrent, howned, own, completion, ending, rfl, hown, hends⟩ :=
        Command.handsIn_executeJob hcarries (hhandlers _ _ hresolve) hhands
      have hsub := told_subset [] ⟨.clock, now⟩ calls
      exact .execution hunfailed rfl (hsub htold) hname hcurrent howned
        (fun w hw => hcarries.mono hsub (hown w hw)) hends
    · intro talk outcome hclose
      cases outcome with
      | ok completion => exact ⟨hclose, fun hnot => absurd rfl (hnot completion)⟩
      | error e =>
        have hunsettled : Unsettled d false talk := hclose
        cases e <;> exact ⟨hunsettled.token, fun _ => hunsettled⟩

theorem keeps_settleContention {talk : List (Exchange (Call ε))} (h : Unsettled d false talk) :
    (engine.settleContention d.job).Keeps (executing engine P d).rules
      (fun talk _ => Carries d talk) talk := by
  refine Interaction.keeps_query_bind.2 ⟨trivial, fun _ _ => Interaction.keeps_bind.2 ?_⟩
  refine (keeps_transact (h.next rfl rfl rfl) fun now calls ws hhands hunfailed => ?_).mono ?_
  · obtain ⟨row, htold, hname, howned, rfl⟩ := Command.handsIn_releaseLock hhands
    exact .release hunfailed (told_subset _ _ _ htold) hname howned
  · intro talk outcome hclose
    cases outcome with
    | ok released => exact hclose
    | error e => exact hclose.token

theorem keeps_settleFailure (error : HandlerError) {talk : List (Exchange (Call ε))}
    (h : Unsettled d false talk) :
    (engine.settleFailure d.job error).Keeps (executing engine P d).rules
      (fun talk _ => Carries d talk) talk := by
  refine Interaction.keeps_query_bind.2 ⟨trivial, fun _ _ => Interaction.keeps_bind.2 ?_⟩
  refine (keeps_transact (h.next rfl rfl rfl) fun now calls ws hhands hcounted => ?_).mono ?_
  · obtain ⟨row, htold, hname, howned, hfails⟩ := Command.handsIn_recordFailure hhands
    exact .failure hcounted (List.mem_append_right _ List.mem_cons_self) (told_subset _ _ _ htold)
      hname howned hfails
  · intro talk outcome hclose
    cases outcome with
    | ok recorded =>
      cases recorded with
      | incidentRaised =>
        exact Interaction.keeps_query_bind.2 ⟨trivial, fun _ _ => Carries.next hclose rfl⟩
      | rescheduled retries due => exact hclose
      | vanished => exact hclose
    | error e =>
      have hcarries : Carries d talk := hclose.token
      change Interaction.Keeps _ _ (if e.isContention = true then _ else _) _
      split
      · exact Interaction.keeps_query_bind.2 ⟨trivial, fun _ _ => hcarries.next rfl⟩
      · exact hcarries

/-! ## Whole runs -/

theorem keeps_executeAndSettle (hcarries : Transaction.Carries R P)
    (hhandlers : engine.HandlersObey R) :
    (engine.executeAndSettle d.job).Keeps (executing engine P d).rules
      (fun talk _ => Carries d talk) [] := by
  refine Interaction.keeps_bind.2 ((keeps_execute hcarries hhandlers).mono ?_)
  rintro talk result ⟨htoken, hunsettled⟩
  cases result with
  | error e => exact htoken
  | ok outcome =>
    have hsettle : (engine.settle d.job outcome).Keeps
        (executing engine P d).rules (fun talk _ => Carries d talk) talk := by
      cases outcome with
      | committed completion =>
        exact Interaction.keeps_query_bind.2 ⟨trivial, fun _ _ => htoken.next rfl⟩
      | contention => exact keeps_settleContention (hunsettled fun _ h => nomatch h)
      | handlerFailed error => exact keeps_settleFailure error (hunsettled fun _ h => nomatch h)
    refine Interaction.keeps_bind.2 (hsettle.mono ?_)
    intro talk settled htoken
    cases settled with
    | error e => exact htoken
    | ok _ => exact htoken

/-- What a worker hands in and gives back while it runs a dispatched job, it does by the rules, and in
the end it has no token in hand. -/
theorem keeps_runJob (hcarries : Transaction.Carries R P) (hhandlers : engine.HandlersObey R) :
    (engine.runJob d).Keeps (executing engine P d).rules
      (fun talk _ => ((Grip.ofDispatched d).through talk).token = none) [] := by
  have hwork := keeps_executeAndSettle hcarries hhandlers (d := d)
  refine Interaction.keeps_bind.2 ((hwork.onAbort _).mono ?_)
  intro talk result htoken
  have hrest : ∀ talk : List (Exchange (Call ε)),
      ((Grip.ofDispatched d).through talk).token = none →
      (if engine.wakes = true then (Interaction.query .wake).bind fun _ => .done result
        else .done result).Keeps (executing engine P d).rules
        (fun talk _ => ((Grip.ofDispatched d).through talk).token = none) talk := by
    intro talk hnone
    split
    · refine Interaction.keeps_query_bind.2 ⟨trivial, fun _ _ => ?_⟩
      rwa [Interaction.Keeps, Grip.through_append_singleton]
    · exact hnone
  cases hscope : d.token with
  | none => exact hrest talk (htoken.trans hscope)
  | some scope =>
    refine Interaction.keeps_query_bind.2 ⟨htoken.trans hscope, fun _ _ => hrest _ ?_⟩
    rw [Grip.through_append_singleton]
    rfl

/-! ## Fair handlers -/

/-- A worker with fair handlers is fair to everybody but the job that it runs. -/
theorem Concludes.isFair {terms : Terms} (hrenews : terms.Renews) {talk : List (Exchange (Call ε))}
    {ws : List Write} (h : engine.Concludes (Write.IsFair terms none) d talk ws) :
    ∀ w ∈ ws, w.IsFair terms (some ⟨engine.owner, d.job.id⟩) (talk.flatMap Exchange.told) := by
  cases h with
  | @execution row now completion own ending _ _ told named _ owned allowed ends =>
    have hdelete : (Write.delete row.id (.exactly row.revision)).IsFair terms
        (some ⟨engine.owner, d.job.id⟩) (talk.flatMap Exchange.told) :=
      .inr ⟨row, told, rfl, rfl, engine.owner, by rw [named], owned⟩
    refine List.forall_mem_append.2 ⟨fun w hw => (allowed w hw).of_none _, ?_⟩
    cases ends with
    | deleted once => exact List.forall_mem_singleton.2 hdelete
    | rescheduled recurs id =>
      exact List.forall_mem_cons.2 ⟨hdelete, List.forall_mem_singleton.2 (hrenews _ rfl)⟩
  | release _ told named owned =>
    rw [← named]
    exact List.forall_mem_singleton.2 (Write.isFair_unlocked told owned rfl rfl rfl)
  | failure _ _ told named owned fails =>
    rw [← named]
    cases fails with
    | retried decided =>
      exact List.forall_mem_singleton.2 (Write.isFair_unlocked told owned rfl rfl rfl)
    | parked id decided =>
      refine List.forall_mem_cons.2 ⟨Write.isFair_unlocked told owned rfl rfl rfl, ?_⟩
      exact List.forall_mem_singleton.2 trivial

end Engine

end DeferredWork
