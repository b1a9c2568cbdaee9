import DeferredWork.Proofs.Routine.Conduct
import DeferredWork.Proofs.Transaction.Discipline

set_option autoImplicit false

/-!
# The conduct of transactions

A transaction makes inner calls only, which nobody notices, until it hands its batch to the store and
tells the operators of incidents.  So what inner calls leave as it is holds after a transaction that
failed (`Transaction.Frame`); to take up a request keeps a conduct if what follows does
(`Transaction.Frame.keeps_ask`), and so does the commit if its batch is let through
(`Transaction.Frame.keeps_commit`).
-/

namespace DeferredWork

variable {ε : Type → Type} {α β : Type}

/-- The call reads something, and concerns neither the pool nor a token. -/
def Call.isInner : Call ε β → Bool
  | .store (.get _) => true
  | .clock => true
  | .draw => true
  | .wallClock => true
  | .foreign _ => true
  | _ => false

theorem Context.Serves.told {ctx ctx' : Context} {exchange : Exchange (Request ε)}
    {calls : List (Exchange (Call ε))} (h : ctx.Serves exchange calls ctx') :
    calls.flatMap Exchange.told = exchange.finds := by
  cases h <;> rfl

namespace Transaction

/-- What holds of a conversation before a transaction commits, as long as it makes inner calls only,
and what holds after it has committed. -/
structure Frame (before after : List (Exchange (Call ε)) → Prop) : Prop where
  inner : ∀ {β : Type} {talk : List (Exchange (Call ε))} (call : Call ε β) (answer : β),
    call.isInner = true → before talk → before (talk ++ [⟨call, answer⟩])
  refused : ∀ {talk : List (Exchange (Call ε))} {ws : List Write} (e : StoreError),
    before talk → before (talk ++ [⟨.store (.apply ws), .error (.refused e)⟩])
  /-- There was nothing to commit. -/
  idle : ∀ {talk : List (Exchange (Call ε))}, before talk → after talk
  committed : ∀ {talk : List (Exchange (Call ε))} {ws : List Write} (rows : List Job),
    before talk → after (talk ++ [⟨.store (.apply ws), .ok rows⟩])
  notified : ∀ {talk : List (Exchange (Call ε))} (incident : Incident),
    after talk → after (talk ++ [incident.told])

variable {before after : List (Exchange (Call ε)) → Prop} {conduct : Conduct ε}

/-- A frame closes as the transaction ends: well, or without effect. -/
def Frame.close (before after : List (Exchange (Call ε)) → Prop)
    (talk : List (Exchange (Call ε))) : Except TransactionError α → Prop
  | .ok _ => after talk
  | .error _ => before talk

theorem Frame.keeps_notifyAll (frame : Frame before after) (incidents : List Incident) (a : α)
    {talk : List (Exchange (Call ε))} (h : after talk) :
    ((Routine.notifyAll incidents).bind fun _ => .done (.ok a)).Keeps conduct.rules
      (Frame.close before after) talk := by
  induction incidents generalizing talk with
  | nil => exact h
  | cons incident incidents ih => exact ⟨trivial, fun _ _ => ih (frame.notified incident h)⟩

theorem Frame.keeps_commit (frame : Frame before after) {ctx : Context} (a : α)
    {talk : List (Exchange (Call ε))} (hbefore : before talk)
    (hallowed : ctx.writes ≠ [] → conduct.apply talk ctx.writes) :
    (commit ctx a).Keeps conduct.rules (Frame.close before after) talk := by
  unfold commit
  split
  · exact frame.keeps_notifyAll _ a (frame.idle hbefore)
  · rename_i hsome
    refine ⟨hallowed hsome, fun answer hanswer => ?_⟩
    match answer, hanswer with
    | .ok rows, _ => exact frame.keeps_notifyAll _ a (frame.committed rows hbefore)
    | .error (.refused e), _ => exact frame.refused e hbefore
    | .error (.crashed reason), hanswer => exact hanswer.elim

/-- To take up a request costs one inner call at most, and keeps the rules if what is done with the
answer does. -/
theorem Frame.keeps_ask (frame : Frame before after) (limit : Duration) {q : Request ε β}
    {next : β → Interaction (Request ε) (Except TransactionError α)} {ctx : Context}
    {talk : List (Exchange (Call ε))} (hbefore : before talk)
    (hserved : ∀ {b calls ctx'}, ctx.Serves ⟨q, b⟩ calls ctx' → before (talk ++ calls) →
      (runFrom limit (next b) ctx').Keeps conduct.rules (Frame.close before after) (talk ++ calls)) :
    (runFrom limit (.ask q next) ctx).Keeps conduct.rules (Frame.close before after) talk := by
  have hatOnce : ∀ {b ctx'}, ctx.Serves ⟨q, b⟩ [] ctx' →
      (runFrom limit (next b) ctx').Keeps conduct.rules (Frame.close before after) talk := by
    intro b ctx' served
    have hnext := hserved served (by rwa [List.append_nil])
    rwa [List.append_nil] at hnext
  cases q with
  | find id =>
    rw [runFrom]
    refine ⟨trivial, fun answer hanswer => ?_⟩
    have hinner := frame.inner (.store (.get id)) answer rfl hbefore
    cases answer with
    | ok stored =>
      cases stored with
      | none => exact hserved (.missed id) hinner
      | some row =>
        obtain rfl : row.id = id := hanswer
        exact hserved (.found row) hinner
    | error failure =>
      cases failure with
      | refused e => exact hserved (.refused id e) hinner
      | crashed reason => exact hanswer.elim
  | now => exact hatOnce .now
  | hasPending => exact hatOnce .hasPending
  | stage change => exact hatOnce (.stage change)
  | draw =>
    rw [runFrom]
    exact ⟨trivial, fun id _ => hserved (.draw id) (frame.inner .draw id rfl hbefore)⟩
  | wallClock =>
    rw [runFrom]
    exact ⟨trivial, fun t _ => hserved (.wallClock t) (frame.inner .wallClock t rfl hbefore)⟩
  | spend time => exact hatOnce (.spend time)
  | foreign q =>
    rw [runFrom]
    refine ⟨trivial, fun answer _ => ?_⟩
    have hinner := frame.inner (.foreign q) answer rfl hbefore
    cases answer with
    | ok b => exact hserved (.foreign q b) hinner
    | error reason => exact hinner

end Transaction

end DeferredWork
