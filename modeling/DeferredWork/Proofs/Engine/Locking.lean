import DeferredWork.Proofs.Shift.Admission

set_option autoImplicit false

/-!
# When a cycle cannot lock

The transactions of an acquisition cycle insert nothing, so the store refuses them only because another
writer was faster or because it is out of reach; the cycle expects the one, and reports the other as
such.  What is left is the expiry of a lock: if there is time for a transaction at all and the clock
leaves room for a lock whenever it is read, no transaction fails the cycle (`Engine.promises_acquire`);
if there is no time or no room, the lock on the first job does (`Engine.leads_failing`).
-/

namespace DeferredWork

variable {ε : Type → Type} {α β : Type}

/-! ## What the store refuses -/

section

variable {v : View} {w : Write} {ws : List Write} {id : JobId}

/-- Only an insertion is refused because its row is there already. -/
theorem View.judge_ne_alreadyExists (hw : w.inserted = []) :
    v.judge w ≠ .error (.alreadyExists id) := by
  have hcurrent : ∀ k expected, v.current k expected ≠ .error (.alreadyExists id) := by
    intro k expected
    unfold current
    split
    · exact nofun
    · split <;> exact nofun
  have hlocked : ∀ job owner expiry now,
      v.locked job owner expiry now ≠ .error (.alreadyExists id) := by
    intro job owner expiry now
    unfold locked
    split <;> exact nofun
  intro h
  cases w with
  | insert job => cases hw
  | update job expected =>
    simp only [judge] at h
    split at h
    · rename_i hrefused
      cases h
      exact hcurrent _ _ hrefused
    · cases h
  | lock k revision owner expiry now =>
    simp only [judge] at h
    split at h
    · rename_i hrefused
      cases h
      exact hcurrent _ _ hrefused
    · split at h
      · rename_i hrefused
        cases h
        exact hlocked _ _ _ _ hrefused
      · cases h
  | delete k expected =>
    simp only [judge] at h
    split at h
    · rename_i hrefused
      cases h
      exact hcurrent _ _ hrefused
    · cases h
  | raise incident => cases h
  | resolve k now => cases h

theorem JobTable.writeAll_ne_alreadyExists {t : JobTable} (hws : ∀ w ∈ ws, w.inserted = []) :
    t.writeAll ws ≠ .error (.alreadyExists id) := by
  induction ws generalizing t with
  | nil => exact nofun
  | cons w ws ih =>
    obtain ⟨hw, hws⟩ := List.forall_mem_cons.1 hws
    intro h
    rw [writeAll, write] at h
    split at h
    · rename_i hrefused
      cases h
      split at hrefused
      · rename_i hjudge
        cases hrefused
        exact View.judge_ne_alreadyExists hw hjudge
      · cases hrefused
    · split at h
      · rename_i hrefused
        cases h
        exact ih hws hrefused
      · cases h

theorem Store.apply_ne_alreadyExists {s : Store} (hws : ∀ w ∈ ws, w.inserted = []) :
    s.apply ws ≠ .error (.alreadyExists id) := by
  intro h
  cases ws with
  | nil => cases h
  | cons w ws =>
    cases havailable : s.available with
    | false =>
      rw [apply, applyIn_of_not_available havailable] at h
      cases h
    | true =>
      rw [apply, applyIn_of_available havailable] at h
      split at h
      · rename_i hrefused
        cases h
        exact JobTable.writeAll_ne_alreadyExists hws hrefused
      · cases h

end

/-- The store refuses a reading or a batch without insertions for no reason but another writer or an
outage, and makes nobody crash. -/
def Exchange.IsFrank : Exchange (Call ε) → Prop
  | ⟨.store (.get _), .error (.refused e)⟩ => ∀ id, e ≠ .alreadyExists id
  | ⟨.store (.apply ws), .error (.refused e)⟩ =>
    (∀ w ∈ ws, w.inserted = []) → ∀ id, e ≠ .alreadyExists id
  | ⟨.store _, .error (.crashed _)⟩ => False
  | _ => True

theorem Call.Answered.frank {s s' : Store} {call : Call ε β} {answer : β}
    (h : call.Answered s answer s') : Exchange.IsFrank ⟨call, answer⟩ := by
  have hplausible := h.plausible
  cases call with
  | store call =>
    have hresponse : s.respond call = (answer, s') := h
    match answer with
    | .ok b => cases call <;> trivial
    | .error (.crashed reason) => cases call <;> exact hplausible
    | .error (.refused e) =>
      cases call with
      | findDue now limit => trivial
      | get id =>
        intro k hk
        rw [Store.respond_get] at hresponse
        have hrefused := congrArg Prod.fst hresponse
        unfold Store.get Store.answer at hrefused
        dsimp only at hrefused
        split at hrefused
        · cases hrefused
        · cases hrefused
          cases hk
      | apply ws =>
        intro hws k hk
        rw [Store.respond_apply] at hresponse
        split at hresponse
        · rename_i hrefused
          cases hresponse
          rw [hk] at hrefused
          exact Store.apply_ne_alreadyExists hws hrefused
        · cases hresponse
  | _ => trivial

/-! ## Failures from outside -/

/-- The failure comes from outside: another writer was faster, or the store was out of reach. -/
def TransactionError.isExternal : TransactionError → Bool
  | .contention _ => true
  | .storeUnavailable _ => true
  | _ => false

theorem TransactionError.isExternal_ofStore {e : StoreError} (h : ∀ id, e ≠ .alreadyExists id) :
    (ofStore e).isExternal = true := by
  cases e with
  | alreadyExists id => exact absurd rfl (h id)
  | _ => rfl

/-- If the transaction has failed, its failure comes from outside. -/
def TransactionError.IsSpared (outcome : Except TransactionError α) : Prop :=
  ∀ e, outcome = .error e → e.isExternal = true

theorem TransactionError.isSpared_ofStore {e : StoreError} (h : ∀ id, e ≠ .alreadyExists id) :
    IsSpared (α := α) (.error (.ofStore e)) := by
  intro _ he
  cases he
  exact isExternal_ofStore h

/-- No transaction has failed the cycle. -/
def AcquisitionError.IsSpared (result : Except AcquisitionError α) : Prop :=
  ∀ e, result ≠ .error (.transaction e)

theorem AcquisitionError.isSpared_ofStore (e : StoreError) :
    IsSpared (α := α) (.error (.ofStore e)) := by
  cases e <;> exact nofun

/-- A failure from outside is passed over, or reported as an outage. -/
theorem AcquisitionError.isSpared_of_isExternal {e : TransactionError} (h : e.isExternal = true)
    (a : α) : IsSpared (if e.isContention then .ok a else .error (.ofTransaction e)) := by
  cases e with
  | contention reason => exact nofun
  | storeUnavailable reason => exact nofun
  | _ => cases h

/-- All other failures fail the cycle. -/
theorem AcquisitionError.eq_transaction {e : TransactionError} (h : e.isExternal = false) (a : α) :
    (if e.isContention then .ok a else .error (.ofTransaction e)) =
      (.error (.transaction e) : Except AcquisitionError α) := by
  cases e with
  | contention reason => cases h
  | storeUnavailable reason => cases h
  | _ => rfl

/-! ## While the clock leaves room -/

/-- Anything may be asked.  The store is frank, and the clock leaves room for a lock of a duration
whenever it is read. -/
def Rules.roomFor (duration : Duration) : Rules (Call ε) where
  possible exchange :=
    exchange.IsFrank ∧ ∀ now ∈ exchange.reading?, (now.after? duration).isSome = true
  allows _ _ _ := True

/-- While the clock leaves room for locks, the routine does not break off and ends as promised. -/
def Routine.Promises (duration : Duration) (post : α → Prop) (r : Routine ε α) : Prop :=
  ∀ talk, r.Keeps (.roomFor duration) (fun _ => post) talk

namespace Engine

open AcquisitionError Routine

variable {duration : Duration} {mid : α → Prop} {post : β → Prop}

theorem promises_bind {x : Routine ε α} {f : α → Routine ε β} (hx : x.Promises duration mid)
    (hf : ∀ a, mid a → (f a).Promises duration post) : Promises duration post (x.bind f) :=
  fun talk => Interaction.keeps_bind.2 ((hx talk).mono fun talk a ha => hf a ha talk)

theorem promises_query_bind {call : Call ε α} {f : α → Routine ε β}
    (hf : ∀ a, (f a).Promises duration post) :
    Promises duration post ((Interaction.query call).bind f) :=
  fun _ => ⟨trivial, fun a _ => hf a _⟩

theorem promises_callStore_bind {call : StoreCall α} {f : Except StoreError α → Routine ε β}
    (hok : ∀ a, (f (.ok a)).Promises duration post)
    (herror : ∀ e, Exchange.IsFrank (ε := ε) ⟨.store call, .error (.refused e)⟩ →
      (f (.error e)).Promises duration post) :
    Promises duration post ((callStore call).bind f) := by
  refine fun talk => ⟨trivial, fun answer hanswer => ?_⟩
  match answer, hanswer with
  | .ok a, _ => exact hok a _
  | .error (.refused e), hanswer => exact herror e hanswer.1 _
  | .error (.crashed reason), hanswer => cases call <;> exact hanswer.1.elim

theorem promises_giveBack_bind {token : Option ScopeId} {f : Unit → Routine ε β}
    (hf : (f ()).Promises duration post) : Promises duration post ((giveBack token).bind f) := by
  cases token with
  | none => exact hf
  | some scope => exact promises_query_bind fun _ => hf

/-! ## Transactions of a cycle -/

theorem exceeds_eq_false {ctx : Context} {limit : Duration} (hlimit : limit ≠ .zero)
    (hspent : ctx.spent = .zero) : ctx.exceeds limit = false := by
  have hnone : ¬ limit < Duration.zero := Nat.not_lt_zero _
  simp [Context.exceeds, hlimit, hspent, hnone]

/-- A batch without insertions is committed, or refused for reasons from outside. -/
theorem promises_commit {ctx : Context} (hwrites : ∀ w ∈ ctx.writes, w.inserted = [])
    (hraised : ctx.raised = []) (a : α) :
    Promises (ε := ε) duration TransactionError.IsSpared (Transaction.commit ctx a) := by
  unfold Transaction.commit
  rw [hraised]
  split
  · exact fun _ => nofun
  · exact promises_callStore_bind (fun rows _ => nofun) fun e hfrank _ =>
      TransactionError.isSpared_ofStore (hfrank hwrites)

theorem promises_lockJob {limit : Duration} (hlimit : limit ≠ .zero) (job : Job) (owner : Owner) :
    Promises (ε := ε) duration TransactionError.IsSpared
      (Transaction.run limit (.lockJob job owner duration)) := by
  refine fun talk => ⟨trivial, fun now hnow => ?_⟩
  obtain ⟨expiry, hexpiry⟩ := Option.isSome_iff_exists.1 (hnow.2 now rfl)
  dsimp only
  rw [Transaction.runFrom_lockJob_eq_commit hlimit hexpiry]
  refine promises_commit (fun w hw => ?_) rfl () _
  obtain rfl := List.mem_singleton.1 hw
  rfl

/-- To release a lock is to read the row, and to stage the release if it is locked by the owner. -/
theorem run_releaseLock (id : JobId) (owner : Owner) :
    (Command.releaseLock (ε := ε) id owner).run = .ask (.find id) fun
      | .error e => .done (.error e)
      | .ok none => .done (.ok false)
      | .ok (some job) =>
        if job.isLockedBy owner then
          .ask (.stage (.update job.released)) fun _ => .done (.ok true)
        else .done (.ok false) := by
  refine congrArg (Interaction.ask (Request.find id)) (funext fun found => ?_)
  match found with
  | .error e => rfl
  | .ok none => rfl
  | .ok (some job) =>
    simp only [Interaction.done_bind, ExceptT.bindCont]
    split <;> rfl

theorem promises_releaseLock {limit : Duration} (hlimit : limit ≠ .zero) (id : JobId)
    (owner : Owner) : Promises (ε := ε) duration TransactionError.IsSpared
      (Transaction.run limit (.releaseLock id owner)) := by
  have hdone : ∀ (ctx : Context) (a : Bool), ctx.spent = .zero →
      (∀ w ∈ ctx.writes, w.inserted = []) → ctx.raised = [] →
      Promises (ε := ε) duration TransactionError.IsSpared
        (Transaction.runFrom limit (.done (.ok a)) ctx) := by
    intro ctx a hspent hwrites hraised
    rw [Transaction.runFrom, exceeds_eq_false hlimit hspent]
    exact promises_commit hwrites hraised a
  refine fun talk => ⟨trivial, fun now _ => ?_⟩
  dsimp only
  rw [run_releaseLock, Transaction.runFrom]
  refine ⟨trivial, fun found hfound => ?_⟩
  cases found with
  | error failure =>
    cases failure with
    | refused e => exact TransactionError.isSpared_ofStore hfound.1
    | crashed reason => exact hfound.1.elim
  | ok found =>
    cases found with
    | none => exact hdone { now := now } false rfl (List.forall_mem_nil _) rfl _
    | some job =>
      dsimp only
      split
      · refine hdone (Context.stage (Context.observe { now := now } job) (.update job.released))
          true rfl (fun w hw => ?_) rfl _
        obtain rfl := List.mem_singleton.1 hw
        rfl
      · exact hdone (Context.observe { now := now } job) false rfl (List.forall_mem_nil _) rfl _

/-! ## Whole cycles -/

variable {engine : Engine ε}

theorem promises_lock (hlimit : engine.limit ≠ .zero) (job : Job) :
    Promises engine.lockDuration AcquisitionError.IsSpared (engine.lock job) := by
  refine promises_bind (promises_lockJob hlimit job engine.owner) fun outcome hspared => ?_
  cases outcome with
  | error e => exact fun _ => isSpared_of_isExternal (hspared e rfl) none
  | ok _ =>
    exact promises_callStore_bind (fun found _ => nofun) fun e _ _ => isSpared_ofStore e

theorem promises_unlock (hlimit : engine.limit ≠ .zero) (id : JobId) :
    Promises engine.lockDuration AcquisitionError.IsSpared (engine.unlock id) := by
  refine promises_bind (promises_releaseLock hlimit id engine.owner) fun outcome hspared => ?_
  cases outcome with
  | error e => exact fun _ => isSpared_of_isExternal (hspared e rfl) ()
  | ok _ => exact fun _ => nofun

theorem promises_offer (hlimit : engine.limit ≠ .zero) (job : Job) (token : Option ScopeId) :
    Promises engine.lockDuration AcquisitionError.IsSpared (engine.offer job token) := by
  refine fun talk => Interaction.Keeps.onAbort
    (promises_bind (promises_lock hlimit job) (fun outcome hspared => ?_) talk) _
  match outcome, hspared with
  | .error e, hspared =>
    exact promises_giveBack_bind fun _ e' he => hspared e' (by cases he; rfl)
  | .ok none, _ => exact promises_giveBack_bind fun _ => nofun
  | .ok (some locked), _ =>
    refine promises_query_bind fun accepted => ?_
    cases accepted with
    | true => exact promises_query_bind fun _ => promises_query_bind fun _ _ => nofun
    | false =>
      refine promises_query_bind fun _ => promises_bind (promises_unlock hlimit locked.id) ?_
      intro released hspared
      refine promises_giveBack_bind fun _ e he => ?_
      cases released with
      | error e' => exact hspared e (by cases he; rfl)
      | ok _ => cases he

theorem promises_takeTokenFor (tried : List ScopeId) (job : Job) :
    Promises (ε := ε) duration (fun _ => True) (takeTokenFor tried job) := by
  unfold takeTokenFor
  split
  · exact fun _ => trivial
  · split
    · exact fun _ => trivial
    · refine promises_query_bind fun taken => ?_
      cases taken <;> exact fun _ => trivial

theorem promises_offerAll (hlimit : engine.limit ≠ .zero) (jobs : List Job)
    (tried : List ScopeId) (report : CycleReport) :
    Promises engine.lockDuration AcquisitionError.IsSpared
      (engine.offerAll jobs tried report) := by
  induction jobs generalizing tried report with
  | nil => exact fun _ => nofun
  | cons job jobs ih =>
    refine promises_bind (promises_takeTokenFor tried job) fun taken _ => ?_
    match taken with
    | none => exact ih _ _
    | some token =>
      refine promises_bind (promises_offer hlimit job token) fun outcome hspared => ?_
      match outcome, hspared with
      | .error e, hspared => exact fun _ e' he => hspared e' (by cases he; rfl)
      | .ok .lost, _ => exact ih _ _
      | .ok .dispatched, _ => exact ih _ _
      | .ok .rejected, _ => exact fun _ => nofun

theorem promises_acquire (hlimit : engine.limit ≠ .zero) (batch : Nat) :
    Promises engine.lockDuration AcquisitionError.IsSpared (engine.acquire batch) := by
  have hcycle : Promises engine.lockDuration AcquisitionError.IsSpared
      (engine.runCycle batch) := by
    refine promises_query_bind fun _ => promises_query_bind fun now => ?_
    refine promises_callStore_bind (fun jobs => ?_) fun e _ _ => isSpared_ofStore e
    cases jobs with
    | nil => exact fun _ => nofun
    | cons job jobs => exact promises_query_bind fun _ => promises_offerAll hlimit _ _ _
  refine promises_query_bind fun _ => promises_bind hcycle fun result hspared => ?_
  refine promises_query_bind fun _ => ?_
  cases result with
  | error e => exact promises_query_bind fun _ _ e' he => hspared e' (by cases he; rfl)
  | ok report => exact fun _ => nofun

end Engine

namespace Routine

variable {s s' : Store} {r r' : Routine ε α} {trace : List (Event ε)}

theorem Runs.isFrank (h : Runs s r trace s' r') :
    ∀ exchange ∈ trace.filterMap Event.own?, exchange.IsFrank := by
  induction h with
  | stop s r => exact List.forall_mem_nil _
  | own answered rest ih => exact List.forall_mem_cons.2 ⟨answered.frank, ih⟩
  | other accepted rest ih => exact ih
  | reach rest ih => exact ih

/-- A run to the end in which the clock leaves room for locks has ended as promised. -/
theorem Runs.promised {duration : Duration} {post : α → Prop} (h : Runs s r trace s' r')
    (hpromises : r.Promises duration post) (hover : r'.isOver = true)
    (hroom : ∀ exchange ∈ trace.filterMap Event.own?, ∀ now ∈ exchange.reading?,
      (now.after? duration).isSome = true) : ∃ a, r' = .done a ∧ post a := by
  have hrest := ((hpromises []).of_leads h.leads fun exchange hmem =>
    ⟨h.isFrank exchange hmem, hroom exchange hmem⟩).1
  cases r' with
  | done a => exact ⟨a, rfl, hrest⟩
  | abort reason => exact hrest.elim
  | ask q next => cases hover

end Routine

/-! ## Where there is no room -/

/-- A transaction that locks a job fails by itself, if there is no time for it or no room for the
lock. -/
theorem Transaction.runFrom_lockJob_eq_error {limit duration : Duration} {now : Instant}
    (h : limit = .zero ∨ now.after? duration = none) (job : Job) (owner : Owner) :
    ∃ e, TransactionError.isExternal e = false ∧
      runFrom (ε := ε) limit (Command.lockJob job owner duration).run { now := now } =
        .done (.error e) := by
  rw [Command.run_lockJob, runFrom]
  dsimp only
  split
  · exact ⟨_, rfl, rfl⟩
  · cases hexpiry : now.after? duration with
    | none => exact ⟨_, rfl, rfl⟩
    | some expiry =>
      have hroom : now.after? duration ≠ none := by
        rw [hexpiry]
        exact Option.some_ne_none expiry
      have hzero : limit = .zero := h.resolve_right hroom
      rw [Option.elim_some, runFrom, runFrom, if_pos (by simp [Context.exceeds, hzero])]
      exact ⟨_, rfl, rfl⟩

/-- What can be said while the store stays as it is can come about. -/
theorem Routine.runs_of_leads {s : Store} {r r' : Routine ε α} {talk : List (Exchange (Call ε))}
    (h : r.Leads talk r')
    (hanswered : ∀ exchange ∈ talk, exchange.question.Answered s exchange.answer s) :
    Runs s r (talk.map Event.own) s r' := by
  induction h with
  | stop r => exact .stop s r
  | ask rest ih =>
    obtain ⟨hfirst, hrest⟩ := List.forall_mem_cons.1 hanswered
    exact .own hfirst (ih hrest)

namespace Engine

open AcquisitionError

/-- What is said in a cycle that fails at a time with the first job that it has polled. -/
def failing (now : Instant) (batch : Nat) (jobs : List Job) : List (Exchange (Call ε)) :=
  [⟨.count .cycles 1, ()⟩, ⟨.enter .polling, ()⟩, ⟨.clock, now⟩,
    ⟨.store (.findDue now (max batch 1)), .ok jobs⟩, ⟨.enter .locking, ()⟩, ⟨.clock, now⟩,
    ⟨.enter .idle, ()⟩, ⟨.count .storeErrors 1, ()⟩]

/-- If there is no time for a transaction or no room for a lock, and the first job that was polled
needs no token, a transaction fails the cycle. -/
theorem leads_failing (engine : Engine ε) {now : Instant} {job : Job}
    (hblocked : engine.limit = .zero ∨ now.after? engine.lockDuration = none)
    (hscope : job.exclusivityScope = none) (batch : Nat) (jobs : List Job) :
    ∃ e, (engine.acquire batch).Leads (failing now batch (job :: jobs))
      (.done (.error (.transaction e))) := by
  obtain ⟨e, howned, hfails⟩ :=
    Transaction.runFrom_lockJob_eq_error (ε := ε) hblocked job engine.owner
  have hlock : (engine.lock job).Leads [⟨.clock, now⟩] (.done (.error (.transaction e))) := by
    have hasked : engine.lock job = .ask .clock fun time =>
        (Transaction.runFrom engine.limit
          (Command.lockJob job engine.owner engine.lockDuration).run { now := time }).bind _ := rfl
    rw [hasked]
    refine .ask ?_
    rw [hfails, Interaction.done_bind, ← eq_transaction howned none]
    exact .stop _
  have hoffer : (engine.offer job none).Leads [⟨.clock, now⟩] (.done (.error (.transaction e))) :=
    (hlock.bind _).onAbort _
  have hofferAll : ∀ report, (engine.offerAll (job :: jobs) [] report).Leads [⟨.clock, now⟩]
      (.done (.error (.transaction e))) := by
    intro report
    have htoken : takeTokenFor (ε := ε) [] job = .done (some none) := by
      rw [takeTokenFor, hscope]
      rfl
    rw [offerAll, htoken]
    exact hoffer.bind _
  have hcycle : (engine.runCycle batch).Leads
      [⟨.enter .polling, ()⟩, ⟨.clock, now⟩,
        ⟨.store (.findDue now (max batch 1)), .ok (job :: jobs)⟩, ⟨.enter .locking, ()⟩, ⟨.clock, now⟩]
      (.done (.error (.transaction e))) :=
    .ask (.ask (.ask (.ask (hofferAll _))))
  exact ⟨e, .ask ((hcycle.bind _).append (.ask (.ask (.stop _))))⟩

/-- A store whose poll gives such jobs leaves such a cycle alone. -/
theorem answered_failing {s : Store} {now : Instant} {batch : Nat} {jobs : List Job}
    (hpoll : s.respond (.findDue now (max batch 1)) = (.ok jobs, s)) :
    ∀ exchange ∈ failing (ε := ε) now batch jobs,
      exchange.question.Answered s exchange.answer s := by
  simp only [failing, List.forall_mem_cons]
  exact ⟨rfl, rfl, rfl, hpoll, rfl, rfl, rfl, rfl, List.forall_mem_nil _⟩

/-- Such a cycle reads the clock as of one time. -/
theorem eq_of_reading?_failing {now time : Instant} {batch : Nat} {jobs : List Job}
    {exchange : Exchange (Call ε)} (hmem : exchange ∈ failing now batch jobs)
    (htime : time ∈ exchange.reading?) : time = now := by
  have hread : time ∈ (failing (ε := ε) now batch jobs).filterMap Exchange.reading? :=
    List.mem_filterMap.2 ⟨exchange, hmem, htime⟩
  have hreadings : (failing (ε := ε) now batch jobs).filterMap Exchange.reading? = [now, now] := rfl
  rw [hreadings] at hread
  simpa using hread

end Engine

end DeferredWork
