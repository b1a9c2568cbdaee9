import DeferredWork.Proofs.Engine.Acquiring
import DeferredWork.Proofs.Engine.Leaving
import DeferredWork.Proofs.Fleet.Record
import DeferredWork.Proofs.Routine.Concluding
import DeferredWork.Proofs.Store.Ranking

set_option autoImplicit false

/-!
# The account of an acquisition cycle

What an engine has locked in a cycle it has handed on to its pool, or released again; only a store
that goes out of reach can leave a lock behind, and then it is a single one.  What is made of one job
is computed first (`Engine.concludes_offer`), and the account is kept along the list of polled jobs
(`Engine.Account`, `Engine.Sweeps`).  Main result: in every cycle, whatever tokens and pool answer
and whenever the store goes out of reach, each job that was tried is accounted for
(`Engine.acquire_accounts`).
-/

namespace DeferredWork

variable {ε : Type → Type} {α : Type}

/-! ## What a cycle says -/

namespace CycleReport

/-- How many jobs the cycle has tried. -/
def handled (report : CycleReport) : Nat :=
  report.lostRaces + report.deferred + report.dispatched + report.rejected

variable (report : CycleReport)

theorem handled_lost :
    { report with lostRaces := report.lostRaces + 1 }.handled = report.handled + 1 := by
  simp only [handled]
  omega

theorem handled_deferred :
    { report with deferred := report.deferred + 1 }.handled = report.handled + 1 := by
  simp only [handled]
  omega

theorem handled_dispatched :
    { report with dispatched := report.dispatched + 1 }.handled = report.handled + 1 := by
  simp only [handled]
  omega

theorem handled_rejected :
    { report with rejected := report.rejected + 1 }.handled = report.handled + 1 := rfl

end CycleReport

/-- The job that was offered to the pool, and whether the pool took it. -/
def Exchange.offer? : Exchange (Call ε) → Option (Dispatched × Bool)
  | ⟨.dispatch d, taken⟩ => some (d, taken)
  | _ => none

/-- The phase that a cycle entered. -/
def Exchange.entered? : Exchange (Call ε) → Option CyclePhase
  | ⟨.enter phase, _⟩ => some phase
  | _ => none

/-- The time that was last read from the clock. -/
def lastReading (talk : List (Exchange (Call ε))) : Option Instant :=
  (talk.filterMap Exchange.reading?).getLast?

/-- Nothing is offered to the pool. -/
def OffersNothing (talk : List (Exchange (Call ε))) : Prop := talk.filterMap Exchange.offer? = []

theorem offersNothing_nil : OffersNothing (ε := ε) [] := rfl

theorem OffersNothing.append {said more : List (Exchange (Call ε))} (h : OffersNothing said)
    (hmore : OffersNothing more) : OffersNothing (said ++ more) := by
  rw [OffersNothing, List.filterMap_append, h, hmore, List.append_nil]

/-- One job is offered, and nothing before or after it. -/
theorem OffersNothing.offer {said more : List (Exchange (Call ε))} (h : OffersNothing said)
    (hmore : OffersNothing more) (d : Dispatched) (taken : Bool) :
    (said ++ ⟨.dispatch d, taken⟩ :: more).filterMap Exchange.offer? = [(d, taken)] := by
  rw [List.filterMap_append, h, List.filterMap_cons, hmore]
  rfl

/-! ## Locking -/

namespace Engine

open Routine

variable (engine : Engine ε) {c : Contents} {job : Job}

/-- The row as the engine locks it at an instant, and the store keeps it. -/
def Locks (now : Instant) (row locked : Job) : Prop :=
  ∃ expiry, now.after? engine.lockDuration = some expiry ∧
    locked = { row.lockedBy engine.owner expiry with revision := row.revision + 1 }

theorem Locks.id_eq {engine : Engine ε} {now : Instant} {row locked : Job}
    (h : engine.Locks now row locked) : locked.id = row.id := by
  obtain ⟨expiry, -, rfl⟩ := h
  rfl

theorem Locks.exclusivityScope_eq {engine : Engine ε} {now : Instant} {row locked : Job}
    (h : engine.Locks now row locked) : locked.exclusivityScope = row.exclusivityScope := by
  obtain ⟨expiry, -, rfl⟩ := h
  rfl

theorem Locks.isLockedBy {engine : Engine ε} {now : Instant} {row locked : Job}
    (h : engine.Locks now row locked) : locked.isLockedBy engine.owner = true := by
  obtain ⟨expiry, -, rfl⟩ := h
  exact row.isLockedBy_lockedBy engine.owner expiry

/-- A lock that is released again leaves the row as it was, without a lock and two revisions
later. -/
theorem Locks.update_released {engine : Engine ε} {now : Instant} {row locked : Job}
    (h : engine.Locks now row locked) (c : Contents) :
    (c.put locked).update locked.released =
      c.put { row.released with revision := row.revision + 2 } := by
  obtain ⟨expiry, -, rfl⟩ := h
  exact Contents.put_put rfl

/-- What may come of locking a job. -/
inductive Secures (job : Job) (c : Contents) :
    Option Instant → Except AcquisitionError (Option Job) → Contents → Prop
  | locked {now : Instant} {locked : Job} (locks : engine.Locks now job locked) :
      Secures job c (some now) (.ok (some locked)) (c.put locked)
  | lost (reading : Option Instant) : Secures job c reading (.ok none) c
  | failed (reading : Option Instant) (e : AcquisitionError) : Secures job c reading (.error e) c
  /-- The lock was taken, and then the store went out of reach. -/
  | unread {now : Instant} {locked : Job} (reading : Option Instant)
      (locks : engine.Locks now job locked) (e : AcquisitionError) :
      Secures job c reading (.error e) (c.put locked)

/-- A store that takes a lock keeps the row as the engine locked it. -/
theorem locks_of_takes {c' : Contents} {now expiry : Instant}
    (hstored : c.jobs.find? job.id = some job)
    (hexpiry : now.after? engine.lockDuration = some expiry)
    (htakes : c.Takes [.lock job.id job.revision engine.owner expiry now] c') :
    ∃ locked, engine.Locks now job locked ∧ c' = c.put locked := by
  obtain ⟨change, hlock, rfl⟩ := Contents.takes_singleton.1 htakes
  obtain ⟨before, hbefore, hafter⟩ := Contents.after_lock hlock
  obtain rfl := Option.some.inj (hstored.symm.trans hbefore)
  exact ⟨_, ⟨expiry, hexpiry, rfl⟩, hafter⟩

theorem concludes_lockJob (hstored : c.jobs.find? job.id = some job) :
    (engine.transact (.lockJob job engine.owner engine.lockDuration)).Concludes .unreliable
      (fun said outcome c' => OffersNothing said ∧
        match outcome with
        | .error _ => c' = c
        | .ok () => ∃ now locked, lastReading said = some now ∧ engine.Locks now job locked ∧
            c' = c.put locked) c := by
  refine concludes_aside rfl fun now _ => ?_
  rcases Transaction.runFrom_lockJob engine.limit job engine.owner engine.lockDuration now with
    ⟨e, he⟩ | ⟨expiry, hexpiry, he⟩
  · rw [he]
    exact ⟨rfl, rfl⟩
  · rw [he]
    refine concludes_callStore_bind (ensures_callApply _) ?_ ?_
    · rintro rows c' (⟨rows, hrows, htakes⟩ | ⟨e, hfails, -, -⟩)
      · obtain ⟨locked, hlocks, rfl⟩ := engine.locks_of_takes hstored hexpiry htakes
        exact ⟨rfl, now, locked, rfl, hlocks, rfl⟩
      · cases hfails
    · rintro e c' (⟨rows, hrows, -⟩ | ⟨e, -, rfl, -⟩)
      · cases hrows
      · exact ⟨rfl, rfl⟩

theorem concludes_lock (hstored : c.jobs.find? job.id = some job) :
    (engine.lock job).Concludes .unreliable (fun said outcome c' => OffersNothing said ∧
      engine.Secures job c (lastReading said) outcome c') c := by
  refine concludes_bind ((engine.concludes_lockJob hstored).mono ?_)
  intro said outcome c' ⟨hquiet, houtcome⟩
  cases outcome with
  | error e =>
    obtain rfl : c' = c := houtcome
    refine ⟨hquiet.append rfl, ?_⟩
    split
    · exact .lost _
    · exact .failed _ _
  | ok value =>
    obtain ⟨now, locked, hreading, hlocks, rfl⟩ := houtcome
    have hread : ∀ answer : Except Fault (Option Job),
        lastReading (said ++ [⟨.store (.get job.id), answer⟩]) = some now := fun answer => by
      rw [lastReading, List.filterMap_append]
      exact (congrArg List.getLast? (List.append_nil _)).trans hreading
    have hkept : (c.put locked).jobs.find? job.id = some locked := by
      rw [← hlocks.id_eq]
      exact c.find?_put_self locked
    refine concludes_callStore_bind (ensures_callGet _) ?_ ?_
    · rintro found c' ⟨rfl, hfound⟩
      obtain hfound | ⟨-, hfailed⟩ := hfound
      · rw [hkept] at hfound
        obtain rfl := Except.ok.inj hfound
        refine ⟨hquiet.append rfl, ?_⟩
        rw [hread, Option.filter_some, if_pos hlocks.isLockedBy]
        exact .locked hlocks
      · cases hfailed
    · rintro e c' ⟨rfl, -⟩
      exact ⟨hquiet.append rfl, .unread _ hlocks _⟩

/-! ## Releasing -/

/-- A transaction offers nothing to the pool. -/
theorem offersNothing_frame :
    Transaction.Frame (ε := ε) OffersNothing OffersNothing where
  inner call answer hinner h := h.append <| by
    cases call with
    | dispatch d => cases hinner
    | _ => rfl
  refused e h := h.append rfl
  idle h := h
  committed rows h := h.append rfl
  notified incident h := h.append rfl

/-- What is left when the engine has released a lock that it holds. -/
theorem Settles.released {setting : Setting} {row : Job} {settlement : Except TransactionError Unit}
    {c' : Contents} (h : engine.Settles setting c (engine.Frees c row.id) settlement c')
    (hstored : c.jobs.find? row.id = some row) (hlocked : row.isLockedBy engine.owner = true) :
    (settlement = .ok () ∧ c' = c.update row.released) ∨ ∃ e, settlement = .error e ∧ c' = c := by
  cases h with
  | done frees =>
    cases frees with
    | released stored _ =>
      obtain rfl := Option.some.inj (hstored.symm.trans stored)
      exact .inl ⟨rfl, rfl⟩
    | notHeld free =>
      rw [free row hstored] at hlocked
      cases hlocked
  | hindered _ => exact .inr ⟨_, rfl, rfl⟩

/-- A lock that the engine holds is released, unless the transaction is hindered. -/
theorem concludes_unlock {row : Job} (hstored : c.jobs.find? row.id = some row)
    (hlocked : row.isLockedBy engine.owner = true) :
    (engine.unlock row.id).Concludes .unreliable (fun said outcome c' => OffersNothing said ∧
      ((outcome = .ok () ∧ c' = c.update row.released) ∨ ∃ e, outcome = .error e ∧ c' = c)) c := by
  have hkeeps : (engine.transact (.releaseLock row.id engine.owner)).Keeps
      (Conduct.rules { apply := fun _ _ => True })
      (Transaction.Frame.close OffersNothing OffersNothing) [] :=
    offersNothing_frame.keeps_run_handsIn engine.limit (fun _ _ _ _ _ => trivial) rfl
  refine concludes_bind (((engine.ensures_releaseLock row.id).concludes hkeeps).mono ?_)
  rintro said result c' ⟨hsettles, hclose⟩
  have hquiet : OffersNothing said := by cases result <;> exact hclose
  rcases hsettles.released engine hstored hlocked with ⟨hsettled, hfreed⟩ | ⟨_, hsettled, hsame⟩
  · cases result with
    | ok released => exact ⟨hquiet.append rfl, .inl ⟨rfl, hfreed⟩⟩
    | error e =>
      refine ⟨hquiet.append rfl, .inl ⟨?_, hfreed⟩⟩
      cases hcontention : e.isContention with
      | true => rfl
      | false =>
        rw [settled, if_neg (Bool.eq_false_iff.1 hcontention)] at hsettled
        cases hsettled
  · cases result with
    | ok released => cases hsettled
    | error e =>
      refine ⟨hquiet.append rfl, .inr ⟨.ofTransaction e, ?_, hsame⟩⟩
      cases hcontention : e.isContention with
      | true =>
        rw [settled, if_pos hcontention] at hsettled
        cases hsettled
      | false => rfl

/-! ## Offering -/

/-- The pool took a job: the row as the engine locked it at the time that it had read last. -/
def HandsOn (said : List (Exchange (Call ε))) (row : Job) (d : Dispatched) : Prop :=
  ∃ before after now, said = before ++ ⟨.dispatch d, true⟩ :: after ∧
    lastReading before = some now ∧ engine.Locks now row d.job

/-- What may come of trying a job. -/
inductive Attempts (job : Job) (c : Contents) :
    List (Exchange (Call ε)) → Except AcquisitionError Fate → Contents → Prop
  | lost {said : List (Exchange (Call ε))} (quiet : OffersNothing said) :
      Attempts job c said (.ok .lost) c
  | failed {said : List (Exchange (Call ε))} (quiet : OffersNothing said) (e : AcquisitionError) :
      Attempts job c said (.error e) c
  /-- The lock was taken, and then the store went out of reach. -/
  | unread {said : List (Exchange (Call ε))} {now : Instant} {locked : Job}
      (quiet : OffersNothing said) (locks : engine.Locks now job locked) (e : AcquisitionError) :
      Attempts job c said (.error e) (c.put locked)
  | dispatched {said : List (Exchange (Call ε))} {d : Dispatched}
      (offered : said.filterMap Exchange.offer? = [(d, true)]) (handed : engine.HandsOn said job d) :
      Attempts job c said (.ok .dispatched) (c.put d.job)
  | rejected {said : List (Exchange (Call ε))} {d : Dispatched} {now : Instant}
      (offered : said.filterMap Exchange.offer? = [(d, false)]) (locks : engine.Locks now job d.job) :
      Attempts job c said (.ok .rejected)
        (c.put { job.released with revision := job.revision + 2 })
  /-- The pool refused the job, and then the store went out of reach. -/
  | unreleased {said : List (Exchange (Call ε))} {d : Dispatched} {now : Instant}
      (offered : said.filterMap Exchange.offer? = [(d, false)]) (locks : engine.Locks now job d.job)
      (e : AcquisitionError) : Attempts job c said (.error e) (c.put d.job)

theorem concludes_giveBack_bind {α : Type} {post : List (Exchange (Call ε)) → α → Contents → Prop}
    {f : Unit → Routine ε α} (token : Option ScopeId)
    (hnext : ∀ said, OffersNothing said →
      (f ()).Concludes .unreliable (fun more => post (said ++ more)) c) :
    Routine.Concludes .unreliable post ((giveBack token).bind f) c := by
  cases token with
  | none => exact hnext [] rfl
  | some scope => exact concludes_aside rfl fun _ _ => hnext [⟨.giveToken scope, ()⟩] rfl

theorem concludes_offer (hstored : c.jobs.find? job.id = some job) (token : Option ScopeId) :
    (engine.offer job token).Concludes .unreliable (engine.Attempts job c) c := by
  refine Concludes.onAbort (concludes_bind ((engine.concludes_lock hstored).mono ?_)) _
  rintro said outcome c' ⟨hquiet, hsecures⟩
  have hback : ∀ {more : List (Exchange (Call ε))}, OffersNothing more →
      OffersNothing (said ++ (more ++ [])) := fun hmore =>
    hquiet.append (hmore.append offersNothing_nil)
  generalize hreading : lastReading said = reading at hsecures
  cases hsecures with
  | failed _ e => exact concludes_giveBack_bind token fun more hmore => .failed (hback hmore) e
  | lost _ => exact concludes_giveBack_bind token fun more hmore => .lost (hback hmore)
  | unread _ locks e =>
    exact concludes_giveBack_bind token fun more hmore => .unread (hback hmore) locks e
  | @locked now locked locks =>
    refine concludes_dispatch_bind fun taken _ => ?_
    cases taken with
    | true =>
      refine concludes_query_bind rfl fun _ _ => concludes_query_bind rfl fun _ _ => ?_
      have hafter : OffersNothing (ε := ε)
          [⟨.enter .dispatched, ()⟩, ⟨.count .acquired 1, ()⟩] := rfl
      exact .dispatched (hquiet.offer hafter ⟨locked, token⟩ true)
        ⟨said, _, now, rfl, hreading, locks⟩
    | false =>
      refine concludes_query_bind rfl fun _ _ => ?_
      have hkept : (c.put locked).jobs.find? locked.id = some locked := c.find?_put_self locked
      have hcounted : OffersNothing (ε := ε) [⟨.count .rejected 1, ()⟩] := rfl
      refine concludes_bind ((engine.concludes_unlock hkept locks.isLockedBy).mono ?_)
      rintro more outcome c' ⟨hmore, hleft⟩
      refine concludes_giveBack_bind token fun last hlast => ?_
      have hafter := hcounted.append (hmore.append (hlast.append offersNothing_nil))
      have hoffered := hquiet.offer hafter ⟨locked, token⟩ false
      rcases hleft with ⟨rfl, rfl⟩ | ⟨e, rfl, rfl⟩
      · rw [locks.update_released]
        exact .rejected hoffered locks
      · exact .unreleased hoffered locks e

/-! ## The account -/

/-- What a cycle has made of the jobs that it has tried.  The pool has accepted some and refused at
most one, and at most one job is stray: it has changed, and was not handed on. -/
structure Account (c : Contents) (tried : List Job) (said : List (Exchange (Call ε)))
    (accepted : List Dispatched) (refused : Option Dispatched) (stray : Option JobId)
    (c' : Contents) : Prop where
  /-- Nothing else was offered to the pool. -/
  offered : said.filterMap Exchange.offer? =
    accepted.map (·, true) ++ refused.toList.map (·, false)
  order : (accepted.map fun d => d.job.id).Sublist (tried.map Job.id)
  /-- No two accepted jobs share a scope. -/
  apart : (accepted.filterMap fun d => d.job.exclusivityScope).Nodup
  handed : ∀ d ∈ accepted, ∃ row ∈ tried, engine.HandsOn said row d
  /-- The accepted jobs are stored as they were handed on. -/
  stored : ∀ d ∈ accepted, c'.jobs.find? d.job.id = some d.job
  stray_tried : ∀ id ∈ stray, id ∈ tried.map Job.id
  others : ∀ id, id ∉ accepted.map (fun d => d.job.id) → id ∉ stray →
    c'.jobs.find? id = c.jobs.find? id
  incidents : c'.incidents = c.incidents

variable {engine} {tried : List Job} {said first : List (Exchange (Call ε))}
  {accepted : List Dispatched} {refused : Option Dispatched} {stray : Option JobId} {c' : Contents}

theorem HandsOn.id_eq {row : Job} {d : Dispatched} (h : engine.HandsOn said row d) :
    d.job.id = row.id := by
  obtain ⟨_, _, _, -, -, locks⟩ := h
  exact locks.id_eq

theorem HandsOn.exclusivityScope_eq {row : Job} {d : Dispatched} (h : engine.HandsOn said row d) :
    d.job.exclusivityScope = row.exclusivityScope := by
  obtain ⟨_, _, _, -, -, locks⟩ := h
  exact locks.exclusivityScope_eq

theorem HandsOn.append {row : Job} {d : Dispatched} (h : engine.HandsOn said row d)
    (more : List (Exchange (Call ε))) : engine.HandsOn (said ++ more) row d := by
  obtain ⟨before, after, now, rfl, hreading, locks⟩ := h
  exact ⟨before, after ++ more, now, by simp, hreading, locks⟩

theorem HandsOn.prepend {row : Job} {d : Dispatched} (h : engine.HandsOn said row d)
    (first : List (Exchange (Call ε))) : engine.HandsOn (first ++ said) row d := by
  obtain ⟨before, after, now, rfl, hreading, locks⟩ := h
  refine ⟨first ++ before, after, now, (List.append_assoc _ _ _).symm, ?_, locks⟩
  rw [lastReading] at hreading ⊢
  rw [List.filterMap_append, List.getLast?_append, hreading, Option.some_or]

/-- Nothing came of the jobs that were tried. -/
theorem account_of_offersNothing (tried : List Job) (h : OffersNothing said) :
    engine.Account c tried said [] none none c where
  offered := h
  order := List.nil_sublist _
  apart := List.nodup_nil
  handed := List.forall_mem_nil _
  stored := List.forall_mem_nil _
  stray_tried := nofun
  others _ _ _ := rfl
  incidents := rfl

/-- A job that was locked went astray. -/
theorem account_of_stray {row : Job} (refused : Option Dispatched) (hname : row.id = job.id)
    (h : said.filterMap Exchange.offer? = refused.toList.map (·, false)) :
    engine.Account c [job] said [] refused (some job.id) (c.put row) where
  offered := h
  order := List.nil_sublist _
  apart := List.nodup_nil
  handed := List.forall_mem_nil _
  stored := List.forall_mem_nil _
  stray_tried id hid := by
    obtain rfl := Option.some.inj hid
    exact List.mem_singleton_self _
  others id _ hstray := by
    rw [← hname] at hstray
    exact Contents.find?_put_of_ne fun heq => hstray (congrArg some heq)
  incidents := rfl

/-- What is said before does not matter to the account if it offers nothing. -/
theorem Account.prepend (h : engine.Account c tried said accepted refused stray c')
    (hfirst : OffersNothing first) :
    engine.Account c tried (first ++ said) accepted refused stray c' :=
  { h with
    offered := by rw [List.filterMap_append, hfirst, h.offered, List.nil_append]
    handed := fun d hd => by
      obtain ⟨row, hrow, handed⟩ := h.handed d hd
      exact ⟨row, hrow, handed.prepend first⟩ }

/-- What is said afterwards does not matter to the account if it offers nothing. -/
theorem Account.append (h : engine.Account c tried said accepted refused stray c')
    {more : List (Exchange (Call ε))} (hmore : OffersNothing more) :
    engine.Account c tried (said ++ more) accepted refused stray c' :=
  { h with
    offered := by rw [List.filterMap_append, hmore, h.offered, List.append_nil]
    handed := fun d hd => by
      obtain ⟨row, hrow, handed⟩ := h.handed d hd
      exact ⟨row, hrow, handed.append more⟩ }

/-- A job is passed over before the others are tried. -/
theorem Account.pass (h : engine.Account c tried said accepted refused stray c') (job : Job) :
    engine.Account c (job :: tried) said accepted refused stray c' :=
  { h with
    order := h.order.cons _
    handed := fun d hd => by
      obtain ⟨row, hrow, handed⟩ := h.handed d hd
      exact ⟨row, List.mem_cons_of_mem _ hrow, handed⟩
    stray_tried := fun id hid => List.mem_cons_of_mem _ (h.stray_tried id hid) }

/-- A job is dispatched before others are tried, none of them of its name or scope. -/
theorem Account.dispatch {d : Dispatched}
    (h : engine.Account (c.put d.job) tried said accepted refused stray c')
    (hoffered : first.filterMap Exchange.offer? = [(d, true)]) (handed : engine.HandsOn first job d)
    (fresh : job.id ∉ tried.map Job.id)
    (alone : ∀ scope, d.job.exclusivityScope = some scope →
      scope ∉ accepted.filterMap fun d => d.job.exclusivityScope) :
    engine.Account c (job :: tried) (first ++ said) (d :: accepted) refused stray c' where
  offered := by
    rw [List.filterMap_append, hoffered, h.offered]
    rfl
  order := by
    rw [List.map_cons, List.map_cons, handed.id_eq]
    exact h.order.cons_cons _
  apart := by
    rw [List.filterMap_cons]
    cases hscope : d.job.exclusivityScope with
    | none => exact h.apart
    | some scope => exact List.nodup_cons.2 ⟨alone scope hscope, h.apart⟩
  handed := by
    refine List.forall_mem_cons.2 ⟨⟨job, List.mem_cons_self, handed.append said⟩, fun e he => ?_⟩
    obtain ⟨row, hrow, handed⟩ := h.handed e he
    exact ⟨row, List.mem_cons_of_mem _ hrow, handed.prepend first⟩
  stored := by
    rw [← handed.id_eq] at fresh
    refine List.forall_mem_cons.2 ⟨?_, h.stored⟩
    rw [h.others d.job.id (fun hmem => fresh (h.order.subset hmem))
      fun hstray => fresh (h.stray_tried _ hstray)]
    exact c.find?_put_self d.job
  stray_tried id hid := List.mem_cons_of_mem _ (h.stray_tried id hid)
  others id hid hstray := by
    rw [List.map_cons, List.mem_cons, not_or] at hid
    rw [h.others id hid.2 hstray]
    exact Contents.find?_put_of_ne (Ne.symm hid.1)
  incidents := h.incidents

/-! ## Trying the polled jobs in turn -/

/-- The report of a cycle that came to its end counts what became of the jobs that were tried, on top
of an earlier report.  The cycle has tried all jobs, or up to one that the pool refused and that is
free again. -/
structure Tallies (start report : CycleReport) (tried untried : List Job)
    (accepted : List Dispatched) (refused : Option Dispatched) (c' : Contents) : Prop where
  polled : report.polled = start.polled
  dispatched : report.dispatched = start.dispatched + accepted.length
  rejected : report.rejected = start.rejected + refused.toList.length
  handled : report.handled = start.handled + tried.length
  complete : refused = none → untried = []
  last : ∀ d ∈ refused, ∃ row, tried.getLast? = some row ∧ row.id = d.job.id ∧
    c'.jobs.find? row.id = some { row.released with revision := row.revision + 2 }

/-- A job is tried before the others, and counted once: as accepted, or as passed over. -/
theorem Tallies.cons {start counted report : CycleReport} {untried : List Job}
    {accepted' : List Dispatched}
    (h : Tallies counted report tried untried accepted refused c') (job : Job)
    (hpolled : counted.polled = start.polled)
    (hdispatched : counted.dispatched + accepted.length = start.dispatched + accepted'.length)
    (hrejected : counted.rejected = start.rejected)
    (hhandled : counted.handled = start.handled + 1) :
    Tallies start report (job :: tried) untried accepted' refused c' where
  polled := h.polled.trans hpolled
  dispatched := h.dispatched.trans hdispatched
  rejected := hrejected ▸ h.rejected
  handled := by rw [h.handled, hhandled, List.length_cons, Nat.add_assoc, Nat.add_comm 1]
  complete := h.complete
  last d hd := by
    obtain ⟨row, hrow, hname, hfree⟩ := h.last d hd
    exact ⟨row, by rw [List.getLast?_cons, hrow]; rfl, hname, hfree⟩

/-- How a cycle may end that tries these jobs, after some scopes have been tried and on top of an
earlier report. -/
def Sweeps (engine : Engine ε) (jobs : List Job) (scopes : List ScopeId) (start : CycleReport)
    (c : Contents) (said : List (Exchange (Call ε)))
    (result : Except AcquisitionError CycleReport) (c' : Contents) : Prop :=
  ∃ tried untried accepted refused stray, jobs = tried ++ untried ∧
    engine.Account c tried said accepted refused stray c' ∧
    (∀ scope ∈ accepted.filterMap fun d => d.job.exclusivityScope, scope ∉ scopes) ∧
    ∀ report, result = .ok report →
      stray = refused.map (fun d => d.job.id) ∧
        Tallies start report tried untried accepted refused c'

/-- A job that waits or is lost is passed over before the others are tried. -/
theorem Sweeps.pass {jobs : List Job} {scopes : List ScopeId} {start counted : CycleReport}
    {result : Except AcquisitionError CycleReport}
    (h : engine.Sweeps jobs (job.exclusivityScope.toList ++ scopes) counted c said result c')
    (hfirst : OffersNothing first) (hpolled : counted.polled = start.polled)
    (hdispatched : counted.dispatched = start.dispatched)
    (hrejected : counted.rejected = start.rejected)
    (hhandled : counted.handled = start.handled + 1) :
    engine.Sweeps (job :: jobs) scopes start c (first ++ said) result c' := by
  obtain ⟨tried, untried, accepted, refused, stray, rfl, haccount, hscopes, hreport⟩ := h
  refine ⟨job :: tried, untried, accepted, refused, stray, rfl, (haccount.pass job).prepend hfirst,
    ?_, ?_⟩
  · exact fun scope hmem hin => hscopes scope hmem (List.mem_append_right _ hin)
  · intro report hresult
    obtain ⟨hstray, htallies⟩ := hreport report hresult
    have hcount : counted.dispatched + accepted.length = start.dispatched + accepted.length := by
      rw [hdispatched]
    exact ⟨hstray, htallies.cons job hpolled hcount hrejected hhandled⟩

/-- A job is dispatched before the others are tried; from then on its scope counts as tried. -/
theorem Sweeps.dispatch {jobs : List Job} {scopes : List ScopeId} {start : CycleReport}
    {result : Except AcquisitionError CycleReport} {d : Dispatched}
    (h : engine.Sweeps jobs (job.exclusivityScope.toList ++ scopes)
      { start with dispatched := start.dispatched + 1 } (c.put d.job) said result c')
    (hoffered : first.filterMap Exchange.offer? = [(d, true)]) (handed : engine.HandsOn first job d)
    (fresh : job.id ∉ jobs.map Job.id)
    (free : ∀ scope, job.exclusivityScope = some scope → scope ∉ scopes) :
    engine.Sweeps (job :: jobs) scopes start c (first ++ said) result c' := by
  obtain ⟨tried, untried, accepted, refused, stray, rfl, haccount, hscopes, hreport⟩ := h
  rw [List.map_append, List.mem_append, not_or] at fresh
  have hscope := handed.exclusivityScope_eq
  have alone : ∀ scope, d.job.exclusivityScope = some scope →
      scope ∉ accepted.filterMap fun d => d.job.exclusivityScope := fun scope heq hmem =>
    hscopes scope hmem (List.mem_append_left _ (Option.mem_toList.2 (hscope ▸ heq)))
  refine ⟨job :: tried, untried, d :: accepted, refused, stray, rfl,
    haccount.dispatch hoffered handed fresh.1 alone, ?_, ?_⟩
  · intro scope hmem
    obtain ⟨e, he, heq⟩ := List.mem_filterMap.1 hmem
    rcases List.mem_cons.1 he with rfl | he
    · exact free scope (hscope ▸ heq)
    · exact fun hin => hscopes scope (List.mem_filterMap.2 ⟨e, he, heq⟩) (List.mem_append_right _ hin)
  · intro report hresult
    obtain ⟨hstray, htallies⟩ := hreport report hresult
    have hcount : start.dispatched + 1 + accepted.length =
        start.dispatched + (d :: accepted).length := by
      rw [List.length_cons, Nat.add_assoc, Nat.add_comm 1]
    exact ⟨hstray, htallies.cons job rfl hcount rfl start.handled_dispatched⟩

/-- A cycle that fails at a job has made nothing of it, or left it astray. -/
theorem sweeps_of_failed {jobs : List Job} {scopes : List ScopeId} {start : CycleReport}
    {e : AcquisitionError} (haccount : engine.Account c [job] said [] refused stray c') :
    engine.Sweeps (job :: jobs) scopes start c said (.error e) c' :=
  ⟨[job], jobs, [], refused, stray, rfl, haccount, List.forall_mem_nil _, nofun⟩

/-- A cycle ends with a job that the pool refused. -/
theorem sweeps_of_rejected {jobs : List Job} {scopes : List ScopeId} {start : CycleReport}
    {d : Dispatched} {now : Instant} (hoffered : said.filterMap Exchange.offer? = [(d, false)])
    (locks : engine.Locks now job d.job) :
    engine.Sweeps (job :: jobs) scopes start c said
      (.ok { start with rejected := start.rejected + 1 })
      (c.put { job.released with revision := job.revision + 2 }) := by
  refine ⟨[job], jobs, [], some d, some job.id, rfl, account_of_stray (some d) rfl hoffered,
    List.forall_mem_nil _, ?_⟩
  rintro report hresult
  obtain rfl := Except.ok.inj hresult
  refine ⟨congrArg some locks.id_eq.symm, ⟨rfl, rfl, rfl, start.handled_rejected, nofun, ?_⟩⟩
  rintro e he
  obtain rfl := Option.some.inj he
  exact ⟨job, rfl, locks.id_eq.symm, c.find?_put_self _⟩

theorem tallies_nil {start : CycleReport} : Tallies start start [] [] [] none c :=
  ⟨rfl, rfl, rfl, rfl, fun _ => rfl, fun _ hd => absurd hd (Option.not_mem_none _)⟩

theorem sweeps_nil {scopes : List ScopeId} {start : CycleReport} :
    engine.Sweeps [] scopes start c [] (.ok start) c := by
  refine ⟨[], [], [], none, none, rfl, account_of_offersNothing [] rfl, List.forall_mem_nil _, ?_⟩
  rintro report hresult
  obtain rfl := Except.ok.inj hresult
  exact ⟨rfl, tallies_nil⟩

/-- A job without a scope needs no token, one of a scope that was tried has to wait, and for any
other the engine tries to take the token. -/
theorem concludes_takeTokenFor_bind {outlook : Outlook ε} {α : Type}
    {post : List (Exchange (Call ε)) → α → Contents → Prop}
    {f : Option (Option ScopeId) → Routine ε α} {scopes : List ScopeId}
    (hnone : job.exclusivityScope = none → (f (some none)).Concludes outlook post c)
    (htried : ∀ scope ∈ scopes, job.exclusivityScope = some scope →
      (f none).Concludes outlook post c)
    (hnew : ∀ scope ∉ scopes, job.exclusivityScope = some scope → ∀ taken,
      (f (if taken then some (some scope) else none)).Concludes outlook
        (fun more => post (⟨.takeToken scope, taken⟩ :: more)) c) :
    Routine.Concludes outlook post ((takeTokenFor scopes job).bind f) c := by
  unfold takeTokenFor
  cases hscope : job.exclusivityScope with
  | none => exact hnone hscope
  | some scope =>
    dsimp only
    split
    · rename_i hmem
      exact htried scope hmem hscope
    · rename_i hmem
      refine concludes_query_bind rfl fun taken _ => ?_
      have hnext := hnew scope hmem hscope taken
      cases taken <;> exact hnext

/-- Whether a job gets its token or has to wait, nothing is offered meanwhile. -/
theorem concludes_takeTokenFor_bind_of_quiet {α : Type}
    {post : List (Exchange (Call ε)) → α → Contents → Prop}
    {f : Option (Option ScopeId) → Routine ε α} {scopes : List ScopeId}
    (hwait : ∀ said, OffersNothing said →
      (f none).Concludes .unreliable (fun more => post (said ++ more)) c)
    (htaken : ∀ said token, OffersNothing said →
      (∀ scope, job.exclusivityScope = some scope → scope ∉ scopes) →
      (f (some token)).Concludes .unreliable (fun more => post (said ++ more)) c) :
    Routine.Concludes .unreliable post ((takeTokenFor scopes job).bind f) c := by
  refine concludes_takeTokenFor_bind (fun hnone => ?_) (fun _ _ _ => hwait [] rfl) ?_
  · exact htaken [] none rfl fun scope hscope => nomatch hnone.symm.trans hscope
  · intro scope hfree hscope taken
    cases taken with
    | false => exact hwait [⟨.takeToken scope, false⟩] rfl
    | true =>
      refine htaken [⟨.takeToken scope, true⟩] (some scope) rfl fun found hfound => ?_
      rwa [← Option.some.inj (hscope.symm.trans hfound)]

theorem concludes_offerAll (engine : Engine ε) (jobs : List Job) (scopes : List ScopeId)
    (start : CycleReport) (hstored : ∀ job ∈ jobs, c.jobs.find? job.id = some job)
    (hnames : (jobs.map Job.id).Nodup) :
    (engine.offerAll jobs scopes start).Concludes .unreliable (engine.Sweeps jobs scopes start c) c := by
  induction jobs generalizing scopes start c with
  | nil => exact sweeps_nil
  | cons job jobs ih =>
    obtain ⟨hjob, hjobs⟩ := List.forall_mem_cons.1 hstored
    obtain ⟨hfresh, hnames⟩ := List.nodup_cons.1 hnames
    refine concludes_takeTokenFor_bind_of_quiet (fun said hquiet => ?_)
      fun said token hquiet hfree => ?_
    · refine (ih _ _ hjobs hnames).mono fun more result c' hsweeps => ?_
      exact hsweeps.pass hquiet rfl rfl rfl start.handled_deferred
    · refine concludes_bind ((engine.concludes_offer hjob token).mono ?_)
      intro tries outcome c₁ hattempts
      have hsaid : ∀ offers, tries.filterMap Exchange.offer? = offers →
          (said ++ (tries ++ [])).filterMap Exchange.offer? = offers := fun offers hoffers => by
        rw [List.append_nil, List.filterMap_append, hquiet, hoffers, List.nil_append]
      cases hattempts with
      | failed quiet e => exact sweeps_of_failed (account_of_offersNothing [job] (hsaid [] quiet))
      | unread quiet locks e =>
        exact sweeps_of_failed (account_of_stray none locks.id_eq (hsaid [] quiet))
      | @unreleased d _ offered locks e =>
        exact sweeps_of_failed (account_of_stray (some d) locks.id_eq (hsaid _ offered))
      | rejected offered locks => exact sweeps_of_rejected (hsaid _ offered) locks
      | lost quiet =>
        refine (ih _ _ hjobs hnames).mono fun more result c' hsweeps => ?_
        rw [← List.append_assoc]
        exact hsweeps.pass (hquiet.append quiet) rfl rfl rfl start.handled_lost
      | @dispatched d offered handed =>
        have hkept : ∀ row ∈ jobs, (c.put d.job).jobs.find? row.id = some row := fun row hrow => by
          refine (Contents.find?_put_of_ne fun heq => hfresh ?_).trans (hjobs row hrow)
          rw [← handed.id_eq, heq]
          exact List.mem_map_of_mem hrow
        refine (ih _ _ hkept hnames).mono fun more result c' hsweeps => ?_
        rw [← List.append_assoc]
        refine hsweeps.dispatch ?_ (handed.prepend said) hfresh hfree
        rw [List.filterMap_append, hquiet, offered, List.nil_append]

/-! ## Whole cycles -/

/-- How a cycle may end whose poll asks for so many jobs. -/
def Accounts (engine : Engine ε) (batch : Nat) (c : Contents) (said : List (Exchange (Call ε)))
    (result : Except AcquisitionError CycleReport) (c' : Contents) : Prop :=
  ∃ now tried untried accepted refused stray,
    (said.filterMap Exchange.reading?).head? = some now ∧
    c.jobs.poll now (max batch 1) = tried ++ untried ∧
    engine.Account c tried said accepted refused stray c' ∧
    ∀ report, result = .ok report →
      stray = refused.map (fun d => d.job.id) ∧
        Tallies { polled := (tried ++ untried).length } report tried untried accepted refused c'

/-- What is said around a cycle does not matter if it offers nothing and does not read the clock
first. -/
theorem Accounts.within {batch : Nat} {result : Except AcquisitionError CycleReport}
    {more : List (Exchange (Call ε))} (h : engine.Accounts batch c said result c')
    (hfirst : OffersNothing first) (hunread : first.filterMap Exchange.reading? = [])
    (hmore : OffersNothing more) : engine.Accounts batch c (first ++ (said ++ more)) result c' := by
  obtain ⟨now, tried, untried, accepted, refused, stray, hnow, hpoll, haccount, hreport⟩ := h
  refine ⟨now, tried, untried, accepted, refused, stray, ?_, hpoll,
    (haccount.append hmore).prepend hfirst, hreport⟩
  rw [List.filterMap_append, hunread, List.nil_append, List.filterMap_append, List.head?_append,
    hnow, Option.some_or]

theorem concludes_runCycle (engine : Engine ε) (batch : Nat) :
    (engine.runCycle batch).Concludes .unreliable (engine.Accounts batch c) c := by
  refine concludes_query_bind rfl fun _ _ => concludes_query_bind rfl fun now _ => ?_
  refine concludes_callStore_bind (ensures_callFindDue now _) ?_ ?_
  · rintro jobs c' ⟨hsame, hpoll⟩
    have hjobs := (Except.ok.inj (hpoll.resolve_right nofun)).symm
    rw [hsame]
    cases jobs with
    | nil =>
      refine ⟨now, [], [], [], none, none, rfl, hjobs, account_of_offersNothing [] rfl, ?_⟩
      rintro report hresult
      obtain rfl := Except.ok.inj hresult
      exact ⟨rfl, tallies_nil⟩
    | cons job jobs =>
      refine concludes_query_bind rfl fun _ _ => ?_
      have hstored : ∀ row ∈ job :: jobs, c.jobs.find? row.id = some row := fun row hrow =>
        JobTable.find?_eq_some_of_mem (JobTable.mem_poll (hjobs ▸ hrow)).1
      have hnames := c.jobs.nodup_poll now (max batch 1)
      rw [hjobs] at hnames
      refine (concludes_offerAll engine (job :: jobs) [] _ hstored hnames).mono ?_
      rintro said result c' ⟨tried, untried, accepted, refused, stray, hsplit, haccount, -, hreport⟩
      have hquiet : OffersNothing (ε := ε) [⟨.enter .polling, ()⟩, ⟨.clock, now⟩,
        ⟨.store (.findDue now (max batch 1)), .ok (job :: jobs)⟩, ⟨.enter .locking, ()⟩] := rfl
      refine ⟨now, tried, untried, accepted, refused, stray, rfl, hjobs.trans hsplit,
        haccount.prepend hquiet, ?_⟩
      rw [← hsplit]
      exact hreport
  · rintro e c' ⟨rfl, -⟩
    exact ⟨now, [], _, [], none, none, rfl, rfl, account_of_offersNothing [] rfl, nofun⟩

theorem concludes_acquire (engine : Engine ε) (batch : Nat) :
    (engine.acquire batch).Concludes .unreliable (fun talk result c' =>
      (talk.filterMap Exchange.entered?).getLast? = some .idle ∧
        engine.Accounts batch c talk result c') c := by
  refine concludes_query_bind rfl fun _ _ =>
    concludes_bind ((concludes_runCycle engine batch).mono ?_)
  intro said result c' haccounts
  refine concludes_query_bind rfl fun _ _ => ?_
  have hcounted : OffersNothing (ε := ε) [⟨.count .cycles 1, ()⟩] := rfl
  have hends : ∀ more : List (Exchange (Call ε)), more.filterMap Exchange.entered? = [.idle] →
      ((said ++ more).filterMap Exchange.entered?).getLast? = some .idle := fun more hidle => by
    rw [List.filterMap_append, hidle, List.getLast?_concat]
  cases result with
  | error e =>
    refine concludes_query_bind rfl fun _ _ => ?_
    have hquiet : OffersNothing (ε := ε) [⟨.enter .idle, ()⟩, ⟨.count .storeErrors 1, ()⟩] := rfl
    exact ⟨hends _ rfl, haccounts.within hcounted rfl hquiet⟩
  | ok report =>
    have hquiet : OffersNothing (ε := ε) [⟨.enter .idle, ()⟩] := rfl
    exact ⟨hends _ rfl, haccounts.within hcounted rfl hquiet⟩

/-- **An acquisition cycle accounts for every job that it tries.**  An engine goes through a cycle
while nobody else commits anything; the store may go out of reach and come back at any time, and
tokens and pool may answer as they like.  Then the cycle ends idle, with a report or an error.  It
has tried the first of the polled jobs: those that the pool took are stored as they were handed on, each
locked at the time that was read last before, with one for each scope and in the order of the poll;
at most one other job has changed.  With a report, that is the one that the pool refused.  It was
tried last, and its lock is released again. -/
theorem acquire_accounts (engine : Engine ε) (batch : Nat) {s s' : Store} {trace : List (Event ε)}
    {r' : Routine ε (Except AcquisitionError CycleReport)}
    (hruns : Runs s (engine.acquire batch) trace s' r')
    (halone : trace.filterMap Event.others? = []) (hover : r'.isOver = true) :
    let talk := trace.filterMap Event.own?
    ∃ result now tried untried accepted refused stray, r' = .done result ∧
      (talk.filterMap Exchange.entered?).getLast? = some .idle ∧
      (talk.filterMap Exchange.reading?).head? = some now ∧
      s.jobs.poll now (max batch 1) = tried ++ untried ∧
      engine.Account s.contents tried talk accepted refused stray s'.contents ∧
      ∀ report, result = .ok report →
        report.polled = (tried ++ untried).length ∧ report.handled = tried.length ∧
        report.dispatched = accepted.length ∧ report.rejected = refused.toList.length ∧
        report.rejected ≤ 1 ∧ report.handled ≤ report.polled ∧
        (report.rejected = 0 → report.handled = report.polled) ∧
        stray = refused.map (fun d => d.job.id) ∧
        ∀ d ∈ refused, ∃ row, tried.getLast? = some row ∧ row.id = d.job.id ∧
          s'.jobs.find? row.id = some { row.released with revision := row.revision + 2 } := by
  obtain ⟨result, hdone, hidle, now, tried, untried, accepted, refused, stray, hnow, hpoll, haccount,
    hreport⟩ := hruns.concluded (engine.concludes_acquire batch) (fun _ => trivial)
      (Outlook.unreliable_includes_of_alone halone) hover
  refine ⟨result, now, tried, untried, accepted, refused, stray, hdone, hidle, hnow, hpoll, haccount,
    fun report hresult => ?_⟩
  obtain ⟨hstray, htallies⟩ := hreport report hresult
  have hhandled : report.handled = tried.length := by
    rw [htallies.handled]
    exact Nat.zero_add _
  have hrejected : report.rejected = refused.toList.length := by
    rw [htallies.rejected]
    exact Nat.zero_add _
  have hpolled : report.polled = (tried ++ untried).length := htallies.polled
  refine ⟨hpolled, hhandled, ?_, hrejected, ?_, ?_, ?_, hstray, htallies.last⟩
  · rw [htallies.dispatched]
    exact Nat.zero_add _
  · rw [hrejected]
    exact Option.length_toList_le
  · rw [hhandled, hpolled, List.length_append]
    exact Nat.le_add_right _ _
  · intro hnone
    have huntried : untried = [] :=
      htallies.complete (Option.length_toList_eq_zero_iff.1 (hrejected.symm.trans hnone))
    rw [hhandled, hpolled, huntried, List.append_nil]

/-- A cycle of the left engine that polls two mails while its pool has no room. -/
def refusal : List (Exchange (Call fun _ => Empty)) ×
    Option (Except AcquisitionError CycleReport) × Store :=
  ((ofPair true).acquire 2).play { Circumstances.early with hasRoom := false }
    (.ofTwo (.mail "first") (.mail "second"))

theorem outcome_refusal : refusal.2.1 = some (.ok { polled := 2, rejected := 1 }) := by
  decide +kernel

/-- The mail that the pool refuses is the only one that is tried, and is not locked afterwards. -/
theorem refused_mail_is_unlocked :
    ∃ now row mail, (Store.ofTwo (.mail "first") (.mail "second")).jobs.poll now 2 = [row, mail] ∧
      refusal.2.2.jobs.find? row.id =
        some { row.released with revision := row.revision + 2 } := by
  obtain ⟨result, now, tried, untried, accepted, refused, stray, hdone, -, -, hpoll, -, hreport⟩ :=
    acquire_accounts (ofPair true) 2 (runs_play _ outcome_refusal) (others?_own _) rfl
  cases hdone
  obtain ⟨hpolled, hhandled, -, hrejected, -, -, -, -, hlast⟩ := hreport _ rfl
  obtain ⟨tried, rfl⟩ := List.length_eq_one_iff.1 hhandled.symm
  obtain ⟨mail, rfl⟩ := List.length_eq_one_iff.1 (Nat.succ.inj hpolled.symm)
  obtain ⟨d, rfl⟩ :=
    Option.isSome_iff_exists.1 (Option.length_toList_eq_one_iff.1 hrejected.symm)
  obtain ⟨row, hrow, -, hfree⟩ := hlast d rfl
  cases hrow
  exact ⟨now, tried, mail, hpoll, hfree⟩

end Engine

end DeferredWork
