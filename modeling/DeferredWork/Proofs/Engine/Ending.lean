import DeferredWork.Operator
import DeferredWork.Proofs.Engine.Executing

set_option autoImplicit false

/-!
# How jobs end

An execution that is committed and a cancellation that says so have brought a batch through that
deletes the job; an execution that ends otherwise and a cancellation that says otherwise have brought
nothing through (`Engine.keeps_ending`, `Operator.keeps_ending`).
-/

namespace DeferredWork

variable {ε : Type → Type} {α β : Type}

/-- The change deletes the job of a name. -/
def Staged.deletes (id : JobId) : Staged → Bool
  | .delete job => job.id == id
  | .forceDelete k => k == id
  | _ => false

theorem Context.deletes_writeOf (ctx : Context) (change : Staged) (id : JobId) :
    (ctx.writeOf change).deletes id = change.deletes id := by
  cases change <;> rfl

/-- Every batch that is handed in deletes the job of a name. -/
def Conduct.ending (id : JobId) : Conduct ε where
  apply _ ws := ∃ w ∈ ws, w.deletes id = true
  dispatch _ _ := True
  takeToken _ _ := True
  giveToken _ _ := True

theorem Conduct.ending_allows_of_isQuiet {id : JobId} {talk : List (Exchange (Call ε))}
    {call : Call ε β} (h : call.isQuiet = true) : (ending id).rules.allows talk call := by
  cases call with
  | store call =>
    cases call with
    | apply ws => cases h
    | _ => trivial
  | _ => trivial

namespace Transaction

variable {id : JobId} {ends : α → Bool}

/-- A body that has gathered something so far and then ends well has by then staged the deletion of a
job, or nothing at all, as its value says. -/
structure Settles (id : JobId) (ends : α → Bool)
    (body : Interaction (Request ε) (Except TransactionError α)) (ctx : Context) : Prop where
  deletes : ∀ said a, (∀ exchange ∈ said, exchange.IsFaithful) → body.Leads said (.done (.ok a)) →
    ends a = true → (∃ w ∈ ctx.writes, w.deletes id = true) ∨
      ∃ exchange ∈ said, ∃ change, exchange.staged? = some change ∧ change.deletes id = true
  idle : ∀ said a, (∀ exchange ∈ said, exchange.IsFaithful) → body.Leads said (.done (.ok a)) →
    ends a = false → ctx.writes = [] ∧ ∀ exchange ∈ said, exchange.staged? = none

theorem Settles.next {q : Request ε β}
    {next : β → Interaction (Request ε) (Except TransactionError α)} {ctx ctx' : Context} {b : β}
    {calls : List (Exchange (Call ε))} (h : Settles id ends (.ask q next) ctx)
    (served : ctx.Serves ⟨q, b⟩ calls ctx') : Settles id ends (next b) ctx' := by
  constructor
  · intro said a hfaithful hleads hends
    have hall := List.forall_mem_cons.2 ⟨served.faithful, hfaithful⟩
    rw [served.writes]
    rcases h.deletes _ a hall (.ask hleads) hends with
      ⟨w, hw, hdeletes⟩ | ⟨x, hx, change, hstaged, hdeletes⟩
    · exact .inl ⟨w, List.mem_append_left _ hw, hdeletes⟩
    · rcases List.mem_cons.1 hx with rfl | hx
      · refine .inl ⟨ctx.writeOf change, List.mem_append_right _ ?_, ?_⟩
        · rw [hstaged]
          exact List.mem_singleton_self _
        · rwa [Context.deletes_writeOf]
      · exact .inr ⟨x, hx, change, hstaged, hdeletes⟩
  · intro said a hfaithful hleads hends
    have hall := List.forall_mem_cons.2 ⟨served.faithful, hfaithful⟩
    obtain ⟨hwrites, hstaged⟩ := h.idle _ a hall (.ask hleads) hends
    obtain ⟨hhead, htail⟩ := List.forall_mem_cons.1 hstaged
    rw [served.writes, hhead, hwrites]
    exact ⟨rfl, htail⟩

/-- A transaction ends having brought a batch through, or nothing, as its value says. -/
def Ended (ends : α → Bool) (talk : List (Exchange (Call ε))) :
    Except TransactionError α → Prop
  | .ok a => ends a = true ↔ ¬ NoneAccepted talk
  | .error _ => NoneAccepted talk

theorem keeps_notifyAll_ending (ends : α → Bool) (incidents : List Incident) (a : α)
    {talk : List (Exchange (Call ε))} (h : ends a = true ↔ ¬ NoneAccepted talk) :
    ((Routine.notifyAll incidents).bind fun _ => .done (.ok a)).Keeps (Conduct.ending id).rules
      (Ended ends) talk := by
  induction incidents generalizing talk with
  | nil => exact h
  | cons incident incidents ih =>
    refine ⟨trivial, fun _ _ => ih ?_⟩
    rw [h, not_iff_not]
    exact ⟨fun hnone => hnone.next rfl, fun hnone => (List.forall_mem_append.1 hnone).1⟩

theorem keeps_commit_ending {ctx : Context} {a : α} {talk : List (Exchange (Call ε))}
    (hnone : NoneAccepted talk)
    (hdeletes : ends a = true → ∃ w ∈ ctx.writes, w.deletes id = true)
    (hidle : ends a = false → ctx.writes = []) :
    (commit ctx a).Keeps (Conduct.ending id).rules (Ended ends) talk := by
  cases hends : ends a with
  | false =>
    rw [commit, hidle hends]
    refine keeps_notifyAll_ending ends _ a ?_
    rw [hends]
    exact iff_of_false Bool.false_ne_true (not_not_intro hnone)
  | true =>
    obtain ⟨w, hw, hdeletesW⟩ := hdeletes hends
    unfold commit
    split
    · rename_i hempty
      rw [hempty] at hw
      cases hw
    · refine ⟨⟨w, hw, hdeletesW⟩, fun answer hanswer => ?_⟩
      match answer, hanswer with
      | .ok rows, _ =>
        refine keeps_notifyAll_ending ends _ a (iff_of_true hends fun haccepted => ?_)
        have hbatch := haccepted _ (List.mem_append_right _ (List.mem_singleton_self _))
        cases hbatch
      | .error (.refused e), _ => exact hnone.next rfl
      | .error (.crashed reason), hcrash => exact hcrash.elim

theorem keeps_runFrom_ending (limit : Duration)
    {body : Interaction (Request ε) (Except TransactionError α)} {ctx : Context}
    {talk : List (Exchange (Call ε))} (h : Settles id ends body ctx) (hnone : NoneAccepted talk) :
    (runFrom limit body ctx).Keeps (Conduct.ending id).rules (Ended ends) talk := by
  induction body generalizing ctx talk with
  | done outcome =>
    cases outcome with
    | error e => exact hnone
    | ok a =>
      rw [runFrom]
      split
      · exact hnone
      · refine keeps_commit_ending hnone (fun hends => ?_) fun hends => ?_
        · rcases h.deletes [] a (List.forall_mem_nil _) (.stop _) hends with hw | ⟨x, hx, -⟩
          · exact hw
          · cases hx
        · exact (h.idle [] a (List.forall_mem_nil _) (.stop _) hends).1
  | abort reason => exact hnone
  | ask q next ih =>
    have htakes := takesUp limit q next ctx
    generalize runFrom limit (.ask q next) ctx = r at htakes ⊢
    cases htakes with
    | atOnce served => exact ih _ (h.next served) hnone
    | @byCall _ call _ quiet answers =>
      refine ⟨Conduct.ending_allows_of_isQuiet quiet, fun answer hanswer => ?_⟩
      have hstill := hnone.next
        (Exchange.batch?_of_not_noticed (Call.not_noticed_of_isQuiet quiet answer))
      rcases answers answer hanswer.truthful with ⟨b, ctx', served, hgoes⟩ | ⟨e, hfails⟩
      · rw [hgoes]
        exact ih b (h.next served) hstill
      · rw [hfails]
        exact hstill

/-- A transaction whose body says whether it deletes a job has deleted it if it says so, and has done
nothing if it says otherwise or fails. -/
theorem keeps_run_ending (limit : Duration) {command : Command ε α}
    (h : ∀ now, Settles id ends command.run { now := now }) :
    (run limit command).Keeps (Conduct.ending id).rules (Ended ends) [] :=
  ⟨trivial, fun now _ => keeps_runFrom_ending limit (h now)
    (NoneAccepted.next (List.forall_mem_nil _) rfl)⟩

end Transaction

/-! ## Executions -/

namespace Command

/-- To end a job stages its deletion. -/
theorem deletes_of_leads_complete {row : Job} {completion : Completion}
    {said : List (Exchange (Request ε))}
    (h : (complete row).run.Leads said (.done (.ok completion))) :
    ∃ exchange ∈ said, exchange.staged? = some (.delete row) := by
  have hdelete : ∀ {f : Unit → Command ε Completion} {said},
      (stage (.delete row) >>= f).run.Leads said (.done (.ok completion)) →
      ∃ exchange ∈ said, exchange.staged? = some (.delete row) := by
    intro f said h
    obtain ⟨more, rfl, -⟩ := leads_stage_bind h
    exact ⟨_, List.mem_cons_self, rfl⟩
  unfold complete at h
  split at h
  · obtain ⟨said₁, said₂, now, rfl, -, hdraw⟩ := leads_bind h
    obtain ⟨said₃, said₄, id, rfl, -, hstage⟩ := leads_bind hdraw
    obtain ⟨x, hx, hstaged⟩ := hdelete hstage
    exact ⟨x, List.mem_append_right _ (List.mem_append_right _ hx), hstaged⟩
  · exact hdelete h

/-- A job that is executed well is deleted. -/
theorem settles_executeJob (job : Job) (owner : Owner) (handler : Handler ε) (now : Instant) :
    Transaction.Settles job.id (fun _ => true) (executeJob job owner handler).run
      { now := now } := by
  refine ⟨fun said completion hfaithful hleads _ => .inr ?_, fun _ _ _ _ h => nomatch h⟩
  obtain ⟨found, more, rfl, hrest⟩ := leads_find_bind hleads
  cases found with
  | none => cases hrest
  | some current =>
    have hname : current.id = job.id := hfaithful _ List.mem_cons_self
    dsimp only at hrest
    split at hrest
    · obtain ⟨said₁, said₂, done, rfl, -, hcomplete⟩ := leads_bind hrest
      obtain ⟨x, hx, hstaged⟩ := deletes_of_leads_complete hcomplete
      refine ⟨x, List.mem_cons_of_mem _ (List.mem_append_right _ hx), _, hstaged, ?_⟩
      exact beq_iff_eq.2 hname
    · cases hrest

end Command

/-- Every batch of an execution deletes the job, and an execution is committed exactly if a batch of
it was accepted. -/
theorem Engine.keeps_ending (engine : Engine ε) (job : Job) :
    (engine.execute job).Keeps (Conduct.ending job.id).rules
      (fun talk result => (∃ completion, result = .ok (.committed completion)) ↔
        ¬ NoneAccepted talk) [] := by
  unfold execute
  split
  · exact iff_of_false (fun ⟨_, h⟩ => nomatch h) (not_not_intro (List.forall_mem_nil _))
  · rename_i handler hresolve
    refine Interaction.keeps_bind.2 ((Transaction.keeps_run_ending engine.limit
      (Command.settles_executeJob job engine.owner handler)).mono ?_)
    intro talk outcome hended
    cases outcome with
    | ok completion => exact iff_of_true ⟨completion, rfl⟩ (hended.1 rfl)
    | error e =>
      have hfalse := not_not_intro hended
      cases e <;> exact iff_of_false (fun ⟨_, h⟩ => nomatch h) hfalse

/-! ## Cancellations -/

/-- A job that is said to be cancelled is deleted. -/
theorem Operator.settles_cancelCommand (id : JobId) (now : Instant) :
    Transaction.Settles (ε := ε) id (fun removed => removed) (cancelCommand id).run
      { now := now } := by
  have hcases : ∀ {said : List (Exchange (Request ε))} {removed},
      (cancelCommand id).run.Leads said (.done (.ok removed)) →
      (removed = false ∧ ∀ x ∈ said, x.staged? = none) ∨
        removed = true ∧ ∃ x ∈ said, x.staged? = some (.forceDelete id) := by
    intro said removed h
    obtain ⟨found, more, rfl, hrest⟩ := Command.leads_find_bind h
    cases found with
    | none =>
      cases hrest
      exact .inl ⟨rfl, List.forall_mem_singleton.2 rfl⟩
    | some row =>
      obtain ⟨more, rfl, hdone⟩ := Command.leads_stage_bind hrest
      cases hdone
      exact .inr ⟨rfl, _, List.mem_cons_of_mem _ List.mem_cons_self, rfl⟩
  constructor
  · intro said removed _ hleads hends
    rcases hcases hleads with ⟨rfl, -⟩ | ⟨-, x, hx, hstaged⟩
    · cases hends
    · exact .inr ⟨x, hx, _, hstaged, beq_self_eq_true id⟩
  · intro said removed _ hleads hends
    rcases hcases hleads with ⟨-, hnone⟩ | ⟨rfl, -⟩
    · exact ⟨rfl, hnone⟩
    · cases hends

/-- Every batch of a cancellation deletes the job, and a cancellation says that the job was there
exactly if a batch of it was accepted. -/
theorem Operator.keeps_ending (operator : Operator) (id : JobId) :
    (operator.cancel id).Keeps (Conduct.ending id).rules
      (fun talk (result : Except TransactionError Bool) =>
        result = .ok true ↔ ¬ NoneAccepted (ε := ε) talk) [] := by
  refine Interaction.keeps_bind.2 ((Transaction.keeps_run_ending operator.limit
    (settles_cancelCommand id)).mono ?_)
  intro talk outcome hended
  cases outcome with
  | ok removed =>
    cases removed with
    | true => exact iff_of_true rfl (hended.1 rfl)
    | false => exact iff_of_false (fun h => nomatch h) (mt hended.2 Bool.false_ne_true)
  | error e =>
    have hfalse := not_not_intro hended
    dsimp only
    split
    · exact iff_of_false (fun h => nomatch h) hfalse
    · exact iff_of_false (fun h => nomatch h) hfalse

/-- To cancel a job asks nothing more once a batch was accepted. -/
theorem Operator.cancel_over {operator : Operator} {id : JobId} {talk : List (Exchange (Call ε))}
    {rest : Routine ε (Except TransactionError Bool)} (hleads : (operator.cancel id).Leads talk rest)
    (hpossible : ∀ exchange ∈ talk, exchange.IsPlausible) (haccepted : ¬ NoneAccepted talk) :
    ∃ result, rest = .done result := by
  have hkeeps : (operator.cancel (ε := ε) id).Keeps
      { possible := Exchange.IsPlausible, allows := fun talk _ _ => NoneAccepted talk }
      (fun _ _ => True) [] := by
    have hnil : NoneAccepted (ε := ε) [] := List.forall_mem_nil _
    refine Interaction.keeps_bind.2 ⟨hnil, fun now _ => ?_⟩
    have hread : NoneAccepted (ε := ε) [⟨.clock, now⟩] := hnil.next rfl
    change (Transaction.runFrom operator.limit (.ask (.find id) _) { now := now }).Keeps _ _ _
    rw [Transaction.runFrom]
    refine ⟨hread, fun answer hanswer => ?_⟩
    cases answer with
    | error fault =>
      cases fault with
      | refused e => trivial
      | crashed reason => exact hanswer.elim
    | ok found =>
      cases found with
      | none =>
        change (Transaction.runFrom operator.limit (.done (.ok false)) _).Keeps _ _ _
        rw [Transaction.runFrom]
        split <;> trivial
      | some row =>
        change (Transaction.runFrom operator.limit (.ask (.stage (.forceDelete id))
          fun _ => .done (.ok true)) _).Keeps _ _ _
        rw [Transaction.runFrom, Transaction.runFrom]
        split
        · trivial
        · refine ⟨hread.next rfl, fun stored hstored => ?_⟩
          cases stored with
          | ok rows => trivial
          | error fault =>
            cases fault with
            | refused e => trivial
            | crashed reason => exact hstored.elim
  have hrest := (hkeeps.of_leads hleads hpossible).1
  cases rest with
  | done result => exact ⟨result, rfl⟩
  | abort reason => exact hrest.elim
  | ask q next => exact absurd hrest.1 haccepted

end DeferredWork
