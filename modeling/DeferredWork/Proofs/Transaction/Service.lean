import DeferredWork.Proofs.Routine.Runs
import DeferredWork.Transaction.Commit

set_option autoImplicit false

/-!
# How the requests of a body are served

A transaction serves the requests of its body one after the other; some of them need a call, the
others are answered from what was gathered so far (`Context.Serves`).  That is all it does before
its commit (`Transaction.takesUp`).  So a transaction that goes well serves all requests of its body
and then commits (`Transaction.leads_runFrom_ok`), and one that does not makes no call that anybody
could notice (`Transaction.leads_runFrom_error`).
-/

namespace DeferredWork

variable {ε : Type → Type} {α β : Type}

namespace Context

/-- One request of a body is served: the calls that are made for it, and what is gathered then. -/
inductive Serves : Context → Exchange (Request ε) → List (Exchange (Call ε)) → Context → Prop
  | found {ctx : Context} (row : Job) :
      Serves ctx ⟨.find row.id, .ok (some row)⟩ [⟨.store (.get row.id), .ok (some row)⟩]
        (ctx.observe row)
  | missed {ctx : Context} (id : JobId) :
      Serves ctx ⟨.find id, .ok none⟩ [⟨.store (.get id), .ok none⟩] ctx
  | refused {ctx : Context} (id : JobId) (e : StoreError) :
      Serves ctx ⟨.find id, .error (.ofStore e)⟩ [⟨.store (.get id), .error (.refused e)⟩] ctx
  | now {ctx : Context} : Serves ctx ⟨.now, ctx.now⟩ [] ctx
  | hasPending {ctx : Context} : Serves ctx ⟨.hasPending, !ctx.writes.isEmpty⟩ [] ctx
  | stage {ctx : Context} (change : Staged) : Serves ctx ⟨.stage change, ()⟩ [] (ctx.stage change)
  | draw {ctx : Context} (id : Uuid) : Serves ctx ⟨.draw, id⟩ [⟨.draw, id⟩] ctx
  | wallClock {ctx : Context} (t : Instant) : Serves ctx ⟨.wallClock, t⟩ [⟨.wallClock, t⟩] ctx
  | spend {ctx : Context} (time : Duration) : Serves ctx ⟨.spend time, ()⟩ [] (ctx.spend time)
  | foreign {ctx : Context} {β : Type} (q : ε β) (b : β) :
      Serves ctx ⟨.foreign q, b⟩ [⟨.foreign q, .ok b⟩] ctx

/-- The requests of a conversation are served one after the other. -/
inductive ServesAll :
    Context → List (Exchange (Request ε)) → List (Exchange (Call ε)) → Context → Prop
  | nil (ctx : Context) : ServesAll ctx [] [] ctx
  | cons {ctx ctx₁ ctx' : Context} {exchange : Exchange (Request ε)}
      {calls more : List (Exchange (Call ε))} {talk : List (Exchange (Request ε))}
      (head : ctx.Serves exchange calls ctx₁) (rest : ServesAll ctx₁ talk more ctx') :
      ServesAll ctx (exchange :: talk) (calls ++ more) ctx'

theorem ServesAll.split {ctx ctx' : Context} {talk₁ talk₂ : List (Exchange (Request ε))}
    {calls : List (Exchange (Call ε))} (h : ctx.ServesAll (talk₁ ++ talk₂) calls ctx') :
    ∃ ctx₁ calls₁ calls₂, ctx.ServesAll talk₁ calls₁ ctx₁ ∧ ctx₁.ServesAll talk₂ calls₂ ctx' ∧
      calls = calls₁ ++ calls₂ := by
  induction talk₁ generalizing ctx calls with
  | nil => exact ⟨ctx, [], calls, .nil ctx, h, rfl⟩
  | cons exchange talk ih =>
    cases h with
    | @cons _ ctx₁ _ _ first more _ head rest =>
      obtain ⟨ctx₂, calls₁, calls₂, h₁, h₂, rfl⟩ := ih rest
      exact ⟨ctx₂, first ++ calls₁, calls₂, .cons head h₁, h₂, (List.append_assoc _ _ _).symm⟩

end Context

/-! ## Calls that can be noticed -/

/-- A row that is told to be a name's row has that name. -/
def Exchange.IsTruthful : Exchange (Call ε) → Prop
  | ⟨.store (.get id), .ok (some row)⟩ => row.id = id
  | _ => True

/-- The exchange that tells the operators of an incident. -/
def Incident.told (incident : Incident) : Exchange (Call ε) := ⟨.notify incident, ()⟩

/-- Others can notice the exchange: a batch was accepted, or the operators were told something. -/
def Exchange.isNoticed : Exchange (Call ε) → Bool
  | ⟨.store (.apply _), .ok _⟩ => true
  | ⟨.notify _, _⟩ => true
  | _ => false

/-- The call neither hands a batch to the store nor tells the operators anything. -/
def Call.isQuiet : Call ε β → Bool
  | .store (.apply _) => false
  | .notify _ => false
  | _ => true

theorem Call.not_noticed_of_isQuiet {call : Call ε β} (h : call.isQuiet = true) (answer : β) :
    Exchange.isNoticed ⟨call, answer⟩ = false := by
  cases call with
  | store call =>
    cases call with
    | apply ws => cases h
    | _ => rfl
  | notify incident => cases h
  | _ => rfl

theorem Exchange.batch?_of_not_noticed {exchange : Exchange (Call ε)}
    (h : exchange.isNoticed = false) : Event.batch? (.own exchange) = none := by
  obtain ⟨question, answer⟩ := exchange
  cases question with
  | store call =>
    cases call with
    | apply ws =>
      cases answer with
      | ok rows => cases h
      | error fault => rfl
    | _ => rfl
  | _ => rfl

theorem Call.Answered.truthful {s s' : Store} {call : Call ε β} {answer : β}
    (h : call.Answered s answer s') : Exchange.IsTruthful ⟨call, answer⟩ := by
  cases call with
  | store call =>
    cases call with
    | get id =>
      match answer, h with
      | .ok (some row), h => exact JobTable.id_of_find? h.find?
      | .ok none, _ => trivial
      | .error _, _ => trivial
    | _ => trivial
  | _ => trivial

theorem Routine.Runs.truthful {s s' : Store} {r r' : Routine ε α} {trace : List (Event ε)}
    (h : Runs s r trace s' r') : ∀ exchange ∈ trace.filterMap Event.own?, exchange.IsTruthful := by
  induction h with
  | stop s r => exact List.forall_mem_nil _
  | own answered rest ih => exact List.forall_mem_cons.2 ⟨answered.truthful, ih⟩
  | other accepted rest ih => exact ih
  | reach rest ih => exact ih

theorem Context.Serves.not_noticed {ctx ctx' : Context} {exchange : Exchange (Request ε)}
    {calls : List (Exchange (Call ε))} (h : ctx.Serves exchange calls ctx') :
    ∀ call ∈ calls, call.isNoticed = false := by
  cases h with
  | now | hasPending | stage _ | spend _ => exact List.forall_mem_nil _
  | _ => exact List.forall_mem_singleton.2 rfl

namespace Transaction

/-! ## The commit -/

theorem leads_notifyAll {incidents : List Incident} {calls : List (Exchange (Call ε))} {a b : α}
    (h : ((Routine.notifyAll incidents).bind fun _ => .done a).Leads calls (.done b)) :
    b = a ∧ calls = incidents.map Incident.told := by
  induction incidents generalizing calls with
  | nil =>
    rw [Routine.notifyAll, Interaction.done_bind] at h
    cases h
    exact ⟨rfl, rfl⟩
  | cons incident incidents ih =>
    rw [Routine.notifyAll, Interaction.ask_bind] at h
    cases h with
    | ask rest =>
      obtain ⟨hvalue, rfl⟩ := ih rest
      exact ⟨hvalue, rfl⟩

/-- A commit that goes well hands what was staged to the store, if anything was, and then tells the
operators of the incidents. -/
theorem leads_commit_ok {ctx : Context} {calls : List (Exchange (Call ε))} {a b : α}
    (h : (commit ctx a).Leads calls (.done (.ok b))) :
    b = a ∧ (ctx.writes = [] ∧ calls = ctx.raised.map Incident.told ∨
      ∃ rows, calls =
        ⟨.store (.apply ctx.writes), .ok rows⟩ :: ctx.raised.map Incident.told) := by
  unfold commit at h
  split at h
  · rename_i hempty
    obtain ⟨hvalue, rfl⟩ := leads_notifyAll h
    exact ⟨Except.ok.inj hvalue, .inl ⟨hempty, rfl⟩⟩
  · rw [Routine.callStore, Interaction.ask_bind] at h
    cases h with
    | @ask _ _ answer _ _ _ rest =>
      match answer, rest with
      | .ok rows, rest =>
        obtain ⟨hvalue, rfl⟩ := leads_notifyAll rest
        exact ⟨Except.ok.inj hvalue, .inr ⟨rows, rfl⟩⟩
      | .error (.refused e), rest => cases rest
      | .error (.crashed reason), rest => cases rest

theorem leads_commit_error {ctx : Context} {calls : List (Exchange (Call ε))} {a : α}
    {e : TransactionError} (h : (commit ctx a).Leads calls (.done (.error e))) :
    ∀ call ∈ calls, call.isNoticed = false := by
  unfold commit at h
  split at h
  · cases (leads_notifyAll h).1
  · rw [Routine.callStore, Interaction.ask_bind] at h
    cases h with
    | @ask _ _ answer _ _ _ rest =>
      match answer, rest with
      | .ok rows, rest => cases (leads_notifyAll rest).1
      | .error (.refused e), rest =>
        cases rest
        exact List.forall_mem_singleton.2 rfl
      | .error (.crashed reason), rest => cases rest

/-! ## The body -/

/-- What becomes of the transaction of a body that asks something: it serves the request at once, or
makes one call and then serves the request or fails. -/
inductive TakesUp (limit : Duration) (q : Request ε β)
    (next : β → Interaction (Request ε) (Except TransactionError α)) (ctx : Context) :
    Routine ε (Except TransactionError α) → Prop
  | atOnce {b : β} {ctx' : Context} (served : ctx.Serves ⟨q, b⟩ [] ctx') :
      TakesUp limit q next ctx (runFrom limit (next b) ctx')
  | byCall {γ : Type} {call : Call ε γ} {rest : γ → Routine ε (Except TransactionError α)}
      (quiet : call.isQuiet = true)
      (answers : ∀ answer, Exchange.IsTruthful ⟨call, answer⟩ →
        (∃ b ctx', ctx.Serves ⟨q, b⟩ [⟨call, answer⟩] ctx' ∧
          rest answer = runFrom limit (next b) ctx') ∨ ∃ e, rest answer = .done (.error e)) :
      TakesUp limit q next ctx (.ask call rest)

theorem takesUp (limit : Duration) (q : Request ε β)
    (next : β → Interaction (Request ε) (Except TransactionError α)) (ctx : Context) :
    TakesUp limit q next ctx (runFrom limit (.ask q next) ctx) := by
  cases q with
  | find id =>
    rw [runFrom]
    refine .byCall rfl fun answer htruth => ?_
    match answer, htruth with
    | .ok none, _ => exact .inl ⟨_, _, .missed id, rfl⟩
    | .ok (some row), htruth =>
      obtain rfl : row.id = id := htruth
      exact .inl ⟨_, _, .found row, rfl⟩
    | .error (.refused e), _ => exact .inl ⟨_, _, .refused id e, rfl⟩
    -- A crash ends the transaction here, before anything was handed to the store.
    | .error (.crashed reason), _ => exact .inr ⟨_, rfl⟩
  | now => exact .atOnce .now
  | hasPending => exact .atOnce .hasPending
  | stage change => exact .atOnce (.stage change)
  | draw =>
    rw [runFrom]
    exact .byCall rfl fun id _ => .inl ⟨_, _, .draw id, rfl⟩
  | wallClock =>
    rw [runFrom]
    exact .byCall rfl fun t _ => .inl ⟨_, _, .wallClock t, rfl⟩
  | spend time => exact .atOnce (.spend time)
  | foreign q =>
    rw [runFrom]
    refine .byCall rfl fun answer _ => ?_
    match answer with
    | .ok b => exact .inl ⟨_, _, .foreign q b, rfl⟩
    | .error reason => exact .inr ⟨_, rfl⟩

/-- The transaction of a body that asks something serves that request and goes on, or fails without
having made a call that could be noticed. -/
theorem leads_ask {limit : Duration} {q : Request ε β}
    {next : β → Interaction (Request ε) (Except TransactionError α)} {ctx : Context}
    {calls : List (Exchange (Call ε))} {result : Except TransactionError α}
    (h : (runFrom limit (.ask q next) ctx).Leads calls (.done result))
    (htruth : ∀ call ∈ calls, call.IsTruthful) :
    (∃ b first more ctx₁, calls = first ++ more ∧ ctx.Serves ⟨q, b⟩ first ctx₁ ∧
      (runFrom limit (.ask q next) ctx).Leads first (runFrom limit (next b) ctx₁) ∧
      (runFrom limit (next b) ctx₁).Leads more (.done result)) ∨
    (∃ e, result = .error e) ∧ ∀ call ∈ calls, call.isNoticed = false := by
  have htakes := takesUp limit q next ctx
  generalize runFrom limit (.ask q next) ctx = r at h htakes ⊢
  cases htakes with
  | atOnce served => exact .inl ⟨_, [], calls, _, rfl, served, .stop _, h⟩
  | @byCall _ call next' quiet answers =>
    cases h with
    | @ask _ _ answer _ more _ rest =>
      have hanswer : Exchange.IsTruthful ⟨call, answer⟩ := htruth _ List.mem_cons_self
      rcases answers answer hanswer with ⟨b, ctx₁, served, hgoes⟩ | ⟨e, hfails⟩
      · rw [hgoes] at rest
        refine .inl ⟨b, [⟨call, answer⟩], more, ctx₁, rfl, served, .ask ?_, rest⟩
        rw [hgoes]
        exact .stop _
      · rw [hfails] at rest
        cases rest
        have hquiet := Call.not_noticed_of_isQuiet quiet answer
        exact .inr ⟨⟨e, rfl⟩, List.forall_mem_singleton.2 hquiet⟩

/-- A transaction that goes well serves the requests of its body to the end and commits. -/
theorem leads_runFrom_ok {limit : Duration}
    {body : Interaction (Request ε) (Except TransactionError α)} {ctx : Context}
    {calls : List (Exchange (Call ε))} {a : α}
    (h : (runFrom limit body ctx).Leads calls (.done (.ok a)))
    (htruth : ∀ call ∈ calls, call.IsTruthful) :
    ∃ talk served closing ctx', calls = served ++ closing ∧ body.Leads talk (.done (.ok a)) ∧
      ctx.ServesAll talk served ctx' ∧ ctx'.exceeds limit = false ∧
      (runFrom limit body ctx).Leads served (commit ctx' a) ∧
      (commit ctx' a).Leads closing (.done (.ok a)) := by
  induction body generalizing ctx calls with
  | done outcome =>
    cases outcome with
    | error e => cases h
    | ok b =>
      rw [runFrom] at h ⊢
      split at h
      · cases h
      · rename_i hlimit
        rw [Bool.not_eq_true] at hlimit
        obtain ⟨rfl, -⟩ := leads_commit_ok h
        refine ⟨[], [], calls, ctx, rfl, .stop _, .nil ctx, hlimit, ?_, h⟩
        rw [hlimit, if_neg Bool.false_ne_true]
        exact .stop _
  | abort reason => cases h
  | ask q next ih =>
    rcases leads_ask h htruth with ⟨b, first, more, ctx₁, rfl, hhead, hfirst, hmore⟩ | ⟨⟨e, he⟩, -⟩
    · obtain ⟨talk, served, closing, ctx', rfl, hbody, hserved, hlimit, hrun, hcommit⟩ :=
        ih b hmore fun call hmem => htruth call (List.mem_append_right _ hmem)
      exact ⟨⟨q, b⟩ :: talk, first ++ served, closing, ctx', (List.append_assoc _ _ _).symm,
        .ask hbody, .cons hhead hserved, hlimit, hfirst.append hrun, hcommit⟩
    · cases he

/-- A transaction that fails has made no call that could be noticed. -/
theorem leads_runFrom_error {limit : Duration}
    {body : Interaction (Request ε) (Except TransactionError α)} {ctx : Context}
    {calls : List (Exchange (Call ε))} {e : TransactionError}
    (h : (runFrom limit body ctx).Leads calls (.done (.error e)))
    (htruth : ∀ call ∈ calls, call.IsTruthful) : ∀ call ∈ calls, call.isNoticed = false := by
  induction body generalizing ctx calls with
  | done outcome =>
    cases outcome with
    | error e' =>
      cases h
      exact List.forall_mem_nil _
    | ok a =>
      rw [runFrom] at h
      split at h
      · cases h
        exact List.forall_mem_nil _
      · exact leads_commit_error h
  | abort reason =>
    cases h
    exact List.forall_mem_nil _
  | ask q next ih =>
    rcases leads_ask h htruth with ⟨b, first, more, ctx₁, rfl, hhead, -, hmore⟩ | ⟨-, hquiet⟩
    · have hrest := ih b hmore fun call hmem => htruth call (List.mem_append_right _ hmem)
      exact List.forall_mem_append.2 ⟨hhead.not_noticed, hrest⟩
    · exact hquiet

end Transaction

end DeferredWork
