import DeferredWork.Proofs.Operator.Leaving
import DeferredWork.Proofs.Store.Independence
import DeferredWork.Proofs.Transaction.Signals

set_option autoImplicit false

/-!
# Amendments of operators

An operator amends a job in one field: its retries, or whether it is suspended.  While nobody else
writes, the operator is either told of a failure, and then nothing at all has happened that anybody
could notice, or told the row that is now stored, which differs from the row before in that field and
by one revision; all other rows stay, and of the incidents only those of this job change, when it is
parked by the amendment or comes back by it (`Operator.amendment_changes_one_field`).
-/

namespace DeferredWork

variable {ε : Type → Type} {σ : Type}

/-! ## Incidents of one job -/

namespace Incident

variable {incident : Incident} {incidents : List Incident}

/-- An incident was raised once among the incidents of its job: it is a new one, or the open one was
bumped by it. -/
inductive RaisedOnce (incident : Incident) : List Incident → List Incident → Prop
  | opened {before : List Incident} (closed : ∀ i ∈ before, i.isOpen = false) :
      RaisedOnce incident before (before ++ [incident])
  | bumped {earlier later : List Incident} {found : Incident}
      (closed : ∀ i ∈ earlier, i.isOpen = false) (reopened : found.isOpen = true) :
      RaisedOnce incident (earlier ++ found :: later) (earlier ++ found.bumped incident :: later)

/-- The incident after all open incidents of its job were resolved. -/
def closedAt (now : Instant) (incident : Incident) : Incident :=
  if incident.isOpen then incident.resolvedAt now else incident

theorem raisedOnce_raiseAmong (hjob : ∀ i ∈ incidents, i.jobId = incident.jobId) :
    RaisedOnce incident incidents (incident.raiseAmong incidents) := by
  induction incidents with
  | nil => exact .opened (List.forall_mem_nil _)
  | cons i incidents ih =>
    obtain ⟨hi, hrest⟩ := List.forall_mem_cons.1 hjob
    rw [raiseAmong]
    cases hopen : i.isOpen with
    | true =>
      rw [if_pos (by simp [hi])]
      exact @RaisedOnce.bumped incident [] _ i (List.forall_mem_nil _) hopen
    | false =>
      rw [if_neg (by simp)]
      have hraised := ih hrest
      generalize incident.raiseAmong incidents = after at hraised ⊢
      cases hraised with
      | opened closed => exact .opened (List.forall_mem_cons.2 ⟨hopen, closed⟩)
      | @bumped earlier later found closed reopened =>
        exact @RaisedOnce.bumped incident (i :: earlier) _ _
          (List.forall_mem_cons.2 ⟨hopen, closed⟩) reopened

theorem resolveAmong_eq_map {id : JobId} (now : Instant) (hjob : ∀ i ∈ incidents, i.jobId = id) :
    resolveAmong id now incidents = incidents.map (closedAt now) := by
  rw [resolveAmong]
  refine List.map_congr_left fun i hi => ?_
  rw [hjob i hi, beq_self_eq_true, Bool.true_and]
  rfl

theorem jobId_of_mem_ofJob {id : JobId} {i : Incident} (h : i ∈ ofJob id incidents) :
    i.jobId = id := by
  rw [ofJob, List.mem_filter] at h
  exact beq_iff_eq.1 h.2

end Incident

namespace Operator

/-! ## Amendments -/

/-- A change that an operator makes to one field of a job. -/
inductive Amendment where
  | retries (value : Nat)
  | suspended (value : Bool)

namespace Amendment

variable (amendment : Amendment) (row : Job)

/-- The job with the field changed. -/
def apply : Amendment → Job → Job
  | .retries value, row => { row with retries := value }
  | .suspended value, row => { row with suspended := value }

/-- The row that is stored for it. -/
def stored : Job := { amendment.apply row with revision := row.revision + 1 }

/-- The job had retries left and has none after the amendment. -/
def Parks : Prop := 0 < row.retries ∧ (amendment.apply row).retries = 0

/-- The job had no retries left and has some after the amendment. -/
def Renews : Prop := row.retries = 0 ∧ 0 < (amendment.apply row).retries

/-- The incident of a job that is parked by the amendment. -/
def incident (id : Uuid) (now : Instant) : Incident :=
  .forJob id (amendment.apply row) noRetriesLeft none now

/-- What is made of a job that was read. -/
def change {ε : Type → Type} : Amendment → Job → Command ε Job
  | .retries value => changeRetries value
  | .suspended value => fun row => pure { row with suspended := value }

/-- What the operators are told, and what is left of the incidents, when a row is amended. -/
inductive Resets (incidents : List Incident) : List Incident → List Incident → Prop
  | parked (id : Uuid) (now : Instant) (parks : amendment.Parks row) :
      Resets incidents [amendment.incident row id now]
        ((amendment.incident row id now).raiseAmong incidents)
  | renewed (now : Instant) (renews : amendment.Renews row) :
      Resets incidents [] (Incident.resolveAmong row.id now incidents)
  | same (keeps : ¬ amendment.Parks row ∧ ¬ amendment.Renews row) : Resets incidents [] incidents

theorem id_apply : (amendment.apply row).id = row.id := by cases amendment <;> rfl

theorem revision_apply : (amendment.apply row).revision = row.revision := by cases amendment <;> rfl

end Amendment

/-- The operation by which an operator makes an amendment. -/
def amend {ε : Type → Type} (operator : Operator) (id : JobId) :
    Amendment → Routine ε (Except TransactionError Job)
  | .retries value => operator.setRetries id value
  | .suspended true => operator.suspend id
  | .suspended false => operator.activate id

/-! ## What an amendment leaves and tells -/

/-- What the operators are told, what is answered and what is left when a job is amended. -/
inductive Amends (operator : Operator) (outages : Prop) (c : Contents) (id : JobId)
    (amendment : Amendment) : List Incident → Except TransactionError Job → Contents → Prop
  | done {row : Job} {told left : List Incident} (found : c.jobs.find? id = some row)
      (resets : amendment.Resets row c.incidents told left) :
      Amends operator outages c id amendment told (.ok (amendment.stored row))
        { c.put (amendment.stored row) with incidents := left }
  | missing (none : c.jobs.find? id = none) :
      Amends operator outages c id amendment [] (.error (.rejected (.notFound id))) c
  | hindered {e : TransactionError} (hindered : operator.limit = .zero ∨ outages) :
      Amends operator outages c id amendment [] (.error e) c

variable {c : Contents} {outlook : Outlook ε}

/-- A body that has found a row comes to its amended form, having staged and raised only what the
amendment asks for. -/
structure Amended (c : Contents) (amendment : Amendment) (row : Job)
    (outcome : Except TransactionError Job) (ctx : Context) : Prop where
  outcome_eq : outcome = .ok (amendment.apply row)
  unspent : ctx.spent = .zero
  observed : ctx.observed? row.id = some row.revision
  resets : ∃ left, amendment.Resets row c.incidents ctx.raised left ∧
    c.Takes ctx.writes { c with incidents := left }

theorem amended_change {setting : Setting} {broken : String → Prop} (amendment : Amendment)
    {row : Job} {now : Instant} :
    (amendment.change (ε := ε) row).run.Yields setting c (Amended c amendment row) broken
      (Context.observe { now := now } row) := by
  have hobserved := observed?_observe_self now row
  cases amendment with
  | suspended value =>
    refine Command.yields_pure ⟨rfl, rfl, hobserved, _, .same ⟨?_, ?_⟩, Contents.takes_nil.2 rfl⟩
    · exact fun hparks => Nat.ne_of_gt hparks.1 hparks.2
    · exact fun hrenews => Nat.ne_of_gt hrenews.2 hrenews.1
  | retries value =>
    unfold Amendment.change changeRetries
    dsimp only
    split
    · rename_i hrenews
      refine Command.yields_stage_bind (Command.yields_pure
        ⟨rfl, rfl, hobserved, _, .renewed now ⟨beq_iff_eq.1 hrenews.2, hrenews.1⟩, ?_⟩)
      exact Contents.takes_singleton.2 ⟨_, .resolve, rfl⟩
    · rename_i hkeeps
      split
      · rename_i hparks
        have hactive : row.retries ≠ 0 := fun h => hparks.2 (beq_iff_eq.2 h)
        refine Command.yields_raiseFor_bind fun id => Command.yields_pure
          ⟨rfl, rfl, hobserved, _, .parked id now ⟨Nat.pos_of_ne_zero hactive, hparks.1⟩, ?_⟩
        exact Contents.takes_singleton.2 ⟨_, .raise, rfl⟩
      · rename_i hlike
        refine Command.yields_pure
          ⟨rfl, rfl, hobserved, _, .same ⟨?_, ?_⟩, Contents.takes_nil.2 rfl⟩
        · exact fun hparks => hlike ⟨hparks.2, fun h => Nat.ne_of_gt hparks.1 (beq_iff_eq.1 h)⟩
        · exact fun hrenews => hkeeps ⟨hrenews.2, beq_iff_eq.2 hrenews.1⟩

theorem concludes_update (operator : Operator) (id : JobId) (amendment : Amendment) :
    (operator.transact (update id amendment.change)).Concludes outlook
      (Transaction.Telling (Amends operator outlook.outages c id amendment)) c := by
  refine Transaction.concludes_run fun now => ?_
  refine Command.yields_find_bind (fun row hrow => ?_) (fun hnone => Amends.missing hnone)
    fun hout => Amends.hindered (.inr hout)
  · obtain rfl := JobTable.id_of_find? hrow
    refine Command.yields_bind.2 ((amended_change amendment).mono ?_)
    rintro _ ctx ⟨rfl, hspent, hobserved, left, hresets, htakes⟩
    refine Command.yields_stage_bind (Command.yields_pure ?_)
    have hguard : ctx.guard (amendment.apply row) = .exactly row.revision := by
      rw [Context.guard, amendment.id_apply, hobserved]
      rfl
    have hraised : (ctx.stage (.update (amendment.apply row))).raised = ctx.raised :=
      List.append_nil _
    have htaken : c.Takes (ctx.stage (.update (amendment.apply row))).writes
        { c.put (amendment.stored row) with incidents := left } := by
      rw [Context.stage, Context.writeOf, hguard]
      refine Contents.takes_append.2 ⟨_, htakes, Contents.takes_singleton.2
        ⟨.put (amendment.stored row), ?_, rfl⟩⟩
      exact .update ((amendment.id_apply row).symm ▸ hrow) ((Expected.matches_exactly _ _).2 rfl)
    refine Transaction.closes_of_takes hspent htaken ?_ fun hhindered _ _ => .hindered hhindered
    rw [Transaction.toldOf, hraised, amendment.revision_apply]
    exact .done hrow hresets

/-- What an operator does after a transaction that went through. -/
theorem concludes_wakeIf (acquirable : Bool) (job : Job) :
    Routine.Concludes outlook (fun said result c' =>
        said.filterMap Exchange.notice? = [] ∧ result = .ok job ∧ c' = c)
      ((wakeIf (ε := ε) acquirable).bind fun _ =>
        .done (.ok job : Except TransactionError Job)) c := by
  unfold wakeIf
  split
  · exact Routine.concludes_query_bind rfl fun _ _ => ⟨rfl, rfl, rfl⟩
  · exact ⟨rfl, rfl, rfl⟩

/-- A conversation, an answer and contents are what comes of an amendment; nobody is woken up if it
fails. -/
def Concluded (operator : Operator) (outages : Prop) (c : Contents) (id : JobId)
    (amendment : Amendment) (said : List (Exchange (Call ε)))
    (result : Except TransactionError Job) (c' : Contents) : Prop :=
  operator.Amends outages c id amendment (said.filterMap Exchange.notice?) result c' ∧
    ∀ e, result = .error e → said.any Exchange.wakes = false

/-- What an operator does after the transaction of an amendment tells the operators of nothing. -/
theorem concludes_after_update (operator : Operator) (id : JobId) (amendment : Amendment)
    {f : Except TransactionError Job → Routine ε (Except TransactionError Job)}
    (herror : ∀ e, f (.error e) = .done (.error e))
    (hok : ∀ job c, (f (.ok job)).Concludes outlook (fun said result c' =>
      said.filterMap Exchange.notice? = [] ∧ result = .ok job ∧ c' = c) c) :
    Routine.Concludes outlook (operator.Concluded outlook.outages c id amendment)
      ((operator.transact (update id amendment.change)).bind f) c := by
  refine Routine.concludes_bind ((operator.concludes_update id amendment).mono ?_)
  rintro said result c' ⟨told, ⟨htold, hnobody⟩, hamends⟩
  subst htold
  cases result with
  | error e =>
    rw [herror]
    refine ⟨?_, fun _ _ => ?_⟩
    · rwa [List.append_nil]
    · rwa [List.append_nil]
  | ok job =>
    refine (hok job c').mono fun more result c'' hend => ?_
    obtain ⟨hmore, rfl, rfl⟩ := hend
    refine ⟨?_, fun e he => nomatch he⟩
    rwa [List.filterMap_append, hmore, List.append_nil]

theorem concludes_amend (operator : Operator) (id : JobId) (amendment : Amendment) :
    (operator.amend id amendment).Concludes outlook
      (operator.Concluded outlook.outages c id amendment) c := by
  cases amendment with
  | retries value =>
    refine operator.concludes_after_update id (.retries value) (fun _ => rfl) fun job c => ?_
    refine Routine.concludes_query_bind rfl fun now _ => ?_
    exact concludes_wakeIf (job.isAcquirable now) job
  | suspended value =>
    cases value with
    | true =>
      rw [amend, suspend, ← Interaction.bind_done (operator.transact _)]
      exact operator.concludes_after_update id (.suspended true) (fun _ => rfl)
        fun job c => ⟨rfl, rfl, rfl⟩
    | false =>
      exact operator.concludes_after_update id (.suspended false) (fun _ => rfl)
        fun job c => concludes_wakeIf true job

/-! ## One field -/

/-- Of the incidents of the job, exactly what the amendment asks for has changed, and the operators
were told of exactly what was raised. -/
inductive Amendment.Accounts (amendment : Amendment) (row : Job) (before : List Incident) :
    List Incident → List Incident → Prop
  /-- The job is parked: one incident is raised. -/
  | parked (parks : amendment.Parks row) (id : Uuid) (now : Instant) {after : List Incident}
      (raised : Incident.RaisedOnce (amendment.incident row id now) before after) :
      Accounts amendment row before [amendment.incident row id now] after
  /-- The job comes back: all its open incidents are resolved. -/
  | renewed (renews : amendment.Renews row) (now : Instant) :
      Accounts amendment row before [] (before.map (Incident.closedAt now))
  | same (keeps : ¬ amendment.Parks row ∧ ¬ amendment.Renews row) :
      Accounts amendment row before [] before

theorem Amendment.Resets.accounts {amendment : Amendment} {row : Job}
    {incidents told left : List Incident} (h : amendment.Resets row incidents told left) :
    amendment.Accounts row (Incident.ofJob row.id incidents) told (Incident.ofJob row.id left) := by
  have hjob : ∀ i ∈ Incident.ofJob row.id incidents, i.jobId = row.id :=
    fun _ => Incident.jobId_of_mem_ofJob
  cases h with
  | parked id now parks =>
    have hid : (amendment.incident row id now).jobId = row.id := amendment.id_apply row
    rw [Incident.ofJob_raiseAmong, if_pos hid]
    exact .parked parks id now (Incident.raisedOnce_raiseAmong (by rwa [hid]))
  | renewed now renews =>
    rw [Incident.ofJob_resolveAmong, if_pos rfl, Incident.resolveAmong_eq_map now hjob]
    exact .renewed renews now
  | same keeps => exact .same keeps

theorem Amendment.Resets.spares {amendment : Amendment} {row : Job}
    {incidents told left : List Incident} (h : amendment.Resets row incidents told left) {k : JobId}
    (hk : k ≠ row.id) : Incident.ofJob k left = Incident.ofJob k incidents := by
  cases h with
  | parked id now parks =>
    have hid : (amendment.incident row id now).jobId = row.id := amendment.id_apply row
    rw [Incident.ofJob_raiseAmong, hid, if_neg hk.symm]
  | renewed now renews => rw [Incident.ofJob_resolveAmong, if_neg hk.symm]
  | same keeps => rfl

/-- The operator was answered the row that the cluster now stores, the job's row before amended in
one field and one revision on; no other row and no incident of another job has changed, and of the
job's own incidents only what the amendment asks for. -/
structure AmendsOnly (amendment : Amendment) (w : World σ) (id : JobId) (job : Job)
    (w' : World σ) : Prop where
  row : ∃ row, w.cluster.store.jobs.find? id = some row ∧ job = amendment.stored row ∧
    ∃ told, amendment.Accounts row (Incident.ofJob id w.cluster.store.incidents) told
        (Incident.ofJob id w'.cluster.store.incidents) ∧
      w'.cluster.notices = w.cluster.notices.map (· ++ told)
  found : w'.cluster.store.jobs.find? id = some job
  others : ∀ k, k ≠ id → w'.cluster.store.jobs.find? k = w.cluster.store.jobs.find? k
  spared : ∀ k, k ≠ id → Incident.ofJob k w'.cluster.store.incidents =
    Incident.ofJob k w.cluster.store.incidents

/-- **An amendment changes one field and nothing else.**  In surroundings that write nothing, setting
the retries of a job, suspending it or activating it comes to an end.  If the operator is answered a
job, it is the stored row, changed in the one field and by one revision, and nothing else has changed
but the incidents of this job: one raised if it lost its last retries, the open ones resolved if it
got retries again.  If the operator is answered a failure, then the jobs, the incidents, what the
operators were told and the trigger are as they were, and there was no such job, the operator's limit
is zero, or the store could go out of reach. -/
theorem amendment_changes_one_field {s : Surroundings ε σ} {outages : Prop}
    (hs : s.IsPassive outages) {w : World σ}
    (hreach : w.cluster.store.available = false → outages) (operator : Operator) (seat : Nat)
    (id : JobId) (amendment : Amendment) :
    ∃ result w', World.run s seat (operator.amend id amendment) w = (.ok result, w') ∧
      match result with
      | .ok job => AmendsOnly amendment w id job w'
      | .error e => w.Keeps w' ∧
          (w.cluster.store.jobs.find? id = none ∧ e = .rejected (.notFound id) ∨
            operator.limit = .zero ∨ outages) := by
  have hconcludes : (operator.amend id amendment).Concludes ({ outages := outages } : Outlook ε)
      (operator.Concluded outages w.cluster.store.contents id amendment)
      w.cluster.store.contents := operator.concludes_amend id amendment
  obtain ⟨said, result, w', hrun, ⟨hamends, hnobody⟩, hshows⟩ :=
    World.run_concluded hs (fun _ => trivial) seat hconcludes hreach
  refine ⟨result, w', hrun, ?_⟩
  generalize htold : said.filterMap Exchange.notice? = told at hamends
  generalize hcontents : w'.cluster.store.contents = c' at hamends
  cases hamends with
  | @done row _ left found resets =>
    obtain rfl : row.id = id := JobTable.id_of_find? found
    have hid : (amendment.stored row).id = row.id := amendment.id_apply row
    have hjobs : w'.cluster.store.jobs = w.cluster.store.jobs.put (amendment.stored row) :=
      congrArg Contents.jobs hcontents
    have hincidents : w'.cluster.store.incidents = left := congrArg Contents.incidents hcontents
    refine ⟨⟨row, found, rfl, told, ?_, ?_⟩, ?_, fun k hk => ?_, fun k hk => ?_⟩
    · rw [hincidents]
      exact resets.accounts
    · rw [hshows.notices, htold]
    · rw [hjobs, JobTable.find?_put, if_pos hid]
    · rw [hjobs, JobTable.find?_put, hid, if_neg hk.symm]
    · rw [hincidents]
      exact resets.spares hk
  | missing none =>
    exact ⟨hshows.keeps hcontents htold (hnobody _ rfl), .inl ⟨none, rfl⟩⟩
  | hindered hindered =>
    exact ⟨hshows.keeps hcontents htold (hnobody _ rfl), .inr hindered⟩

/-- A world in which nobody but an operator is at work, on the jobs of two tenants. -/
def tenantsWorld : World Unit := ⟨{ store := .ofTenants, clock := .epoch, wall := .epoch }, ()⟩

/-- The surroundings of an operator who is alone. -/
def alone : Surroundings (fun _ => Empty) Unit := .quiet Unit fun question _ => question.elim

/-- To take the last retries of the eastern tenant's job parks it, and touches nothing of the western
tenant's. -/
theorem eastern_job_parked :
    ∃ job w', World.run alone 0 (amend ⟨.ofSeconds 30, 3⟩ ⟨"east"⟩ (.retries 0)) tenantsWorld =
        (.ok (.ok job), w') ∧
      AmendsOnly (.retries 0) tenantsWorld ⟨"east"⟩ job w' := by
  have hpassive : alone.IsPassive False := Surroundings.quiet_isPassive fun q _ => q.elim
  obtain ⟨result, w', hrun, hresult⟩ := amendment_changes_one_field hpassive (w := tenantsWorld)
    (fun h => nomatch h) ⟨.ofSeconds 30, 3⟩ 0 ⟨"east"⟩ (.retries 0)
  cases result with
  | ok job => exact ⟨job, w', hrun, hresult⟩
  | error e =>
    obtain ⟨-, ⟨hnone, -⟩ | hlimit | hout⟩ := hresult
    · exact absurd hnone (by decide +kernel)
    · exact absurd hlimit (by decide)
    · exact hout.elim

end Operator

end DeferredWork
