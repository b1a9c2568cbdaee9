import DeferredWork.Proofs.Routine.Solitude
import DeferredWork.Proofs.Transaction.LostUpdate

set_option autoImplicit false

/-!
# Transactions that are alone with the store

The body of a transaction reads what the store holds and stages changes; what comes of it while
nobody else commits anything is computed along the body, request by request
(`Interaction.Yields`), or read off its whole conversation (`Interaction.yields_of_leads`).  A
transaction then commits what its body staged as one batch, or leaves everything as it was
(`Transaction.ensures_run`).
-/

namespace DeferredWork

variable {ε : Type → Type} {α β : Type}

/-- A reading of a body tells what the store holds, unless the store is out of reach. -/
def Contents.Tells (setting : Setting) (c : Contents) : Exchange (Request ε) → Prop
  | ⟨.find id, answer⟩ =>
    answer = .ok (c.jobs.find? id) ∨ setting.outages ∧ answer = .error (.ofStore Store.outOfReach)
  | _ => True

/-- What is gathered after a reading. -/
def Context.note (ctx : Context) : Option Job → Context
  | none => ctx
  | some row => ctx.observe row

namespace Interaction

variable {setting : Setting} {c : Contents} {post : α → Context → Prop} {broken : String → Prop}

/-- While the store holds this, and whatever else it is told, a body ends with a value and having
gathered what is promised, or breaks off for a reason as promised. -/
def Yields (setting : Setting) (c : Contents) (post : α → Context → Prop) (broken : String → Prop) :
    Interaction (Request ε) α → Context → Prop
  | .done a, ctx => post a ctx
  | .abort reason, _ => broken reason
  | .ask (.find id) next, ctx =>
    Yields setting c post broken (next (.ok (c.jobs.find? id))) (ctx.note (c.jobs.find? id)) ∧
      (setting.outages →
        Yields setting c post broken (next (.error (.ofStore Store.outOfReach))) ctx)
  | .ask .now next, ctx => Yields setting c post broken (next ctx.now) ctx
  | .ask .hasPending next, ctx => Yields setting c post broken (next (!ctx.writes.isEmpty)) ctx
  | .ask (.stage change) next, ctx => Yields setting c post broken (next ()) (ctx.stage change)
  | .ask .draw next, ctx => ∀ id, Yields setting c post broken (next id) ctx
  | .ask .wallClock next, ctx => ∀ t, Yields setting c post broken (next t) ctx
  | .ask (.spend time) next, ctx => Yields setting c post broken (next ()) (ctx.spend time)
  | .ask (.foreign _) next, ctx =>
    (∀ b, Yields setting c post broken (next b) ctx) ∧ ∀ reason, broken reason

theorem Yields.mono {post' : α → Context → Prop} {x : Interaction (Request ε) α} {ctx : Context}
    (h : x.Yields setting c post broken ctx) (hpost : ∀ a ctx, post a ctx → post' a ctx) :
    x.Yields setting c post' broken ctx := by
  induction x generalizing ctx with
  | done a => exact hpost a ctx h
  | abort reason => exact h
  | ask q next ih =>
    cases q with
    | find id => exact ⟨ih _ h.1, fun hout => ih _ (h.2 hout)⟩
    | draw => exact fun id => ih id (h id)
    | wallClock => exact fun t => ih t (h t)
    | foreign q => exact ⟨fun b => ih b (h.1 b), h.2⟩
    | _ => exact ih _ h

theorem yields_bind {post : β → Context → Prop} {x : Interaction (Request ε) α}
    {f : α → Interaction (Request ε) β} {ctx : Context} :
    Yields setting c post broken (x.bind f) ctx ↔
      x.Yields setting c (fun a ctx => (f a).Yields setting c post broken ctx) broken ctx := by
  induction x generalizing ctx with
  | done a => exact Iff.rfl
  | abort reason => exact Iff.rfl
  | ask q next ih => cases q <;> simp only [ask_bind, Yields, ih]

/-- What holds after each conversation of a body that tells what the store holds, the body
yields. -/
theorem yields_of_leads {x : Interaction (Request ε) α} {ctx : Context}
    (hdone : ∀ said calls a ctx', x.Leads said (.done a) → ctx.ServesAll said calls ctx' →
      (∀ exchange ∈ said, c.Tells setting exchange) → post a ctx')
    (hbroken : ∀ reason, broken reason) : x.Yields setting c post broken ctx := by
  induction x generalizing ctx with
  | done a => exact hdone [] [] a ctx (.stop _) (.nil ctx) (List.forall_mem_nil _)
  | abort reason => exact hbroken reason
  | @ask _ q next ih =>
    -- Once the first request is served, the rest of the conversation follows it.
    have hnext : ∀ {b calls ctx₁}, ctx.Serves ⟨q, b⟩ calls ctx₁ → c.Tells setting ⟨q, b⟩ →
        (next b).Yields setting c post broken ctx₁ := by
      intro b calls ctx₁ served told
      refine ih b fun said more a ctx' hleads hserved htold => ?_
      exact hdone (⟨q, b⟩ :: said) (calls ++ more) a ctx' (.ask hleads) (.cons served hserved)
        (List.forall_mem_cons.2 ⟨told, htold⟩)
    cases q with
    | find id =>
      refine ⟨?_, fun hout => hnext (.refused id _) (.inr ⟨hout, rfl⟩)⟩
      cases hrow : c.jobs.find? id with
      | none => exact hnext (.missed id) (.inl (hrow ▸ rfl))
      | some row =>
        obtain rfl := JobTable.id_of_find? hrow
        exact hnext (.found row) (.inl (hrow ▸ rfl))
    | now => exact hnext .now trivial
    | hasPending => exact hnext .hasPending trivial
    | stage change => exact hnext (.stage change) trivial
    | draw => exact fun id => hnext (.draw id) trivial
    | wallClock => exact fun t => hnext (.wallClock t) trivial
    | spend time => exact hnext (.spend time) trivial
    | foreign q => exact ⟨fun b => hnext (.foreign q b) trivial, hbroken⟩

end Interaction

/-! ## Commands -/

namespace Command

open Interaction

variable {setting : Setting} {c : Contents} {broken : String → Prop} {ctx : Context}
  {post : Except TransactionError β → Context → Prop}

theorem yields_bind {x : Command ε α} {f : α → Command ε β} :
    (x >>= f).run.Yields setting c post broken ctx ↔
      x.run.Yields setting c
        (fun
          | .ok a => (f a).run.Yields setting c post broken
          | .error e => post (.error e))
        broken ctx := by
  refine Iff.trans Interaction.yields_bind ?_
  refine iff_of_eq (congrArg (fun p => Yields setting c p broken x.run ctx) ?_)
  funext outcome
  cases outcome <;> rfl

theorem yields_pure {b : β} (h : post (.ok b) ctx) :
    (pure b : Command ε β).run.Yields setting c post broken ctx := h

theorem yields_stage {change : Staged} {post : Except TransactionError Unit → Context → Prop}
    (h : post (.ok ()) (ctx.stage change)) :
    (stage (ε := ε) change).run.Yields setting c post broken ctx := h

theorem yields_stage_bind {change : Staged} {f : Unit → Command ε β}
    (h : (f ()).run.Yields setting c post broken (ctx.stage change)) :
    (stage change >>= f).run.Yields setting c post broken ctx := h

theorem yields_now_bind {f : Instant → Command ε β}
    (h : (f ctx.now).run.Yields setting c post broken ctx) :
    (ask .now >>= f).run.Yields setting c post broken ctx := h

theorem yields_draw_bind {f : Uuid → Command ε β}
    (h : ∀ id, (f id).run.Yields setting c post broken ctx) :
    (ask .draw >>= f).run.Yields setting c post broken ctx := h

theorem yields_raiseFor_bind {job : Job} {message : String} {details : Option String}
    {f : Unit → Command ε β}
    (h : ∀ id, (f ()).run.Yields setting c post broken
      (ctx.stage (.raise (.forJob id job message details ctx.now)))) :
    (raiseFor job message details >>= f).run.Yields setting c post broken ctx := h

/-- A body that reads a job goes on with the row that is stored, and notes its revision. -/
theorem yields_find_bind {id : JobId} {f : Option Job → Command ε β}
    (hfound : ∀ row, c.jobs.find? id = some row →
      (f (some row)).run.Yields setting c post broken (ctx.observe row))
    (hnone : c.jobs.find? id = none → (f none).run.Yields setting c post broken ctx)
    (hout : setting.outages → post (.error (.ofStore Store.outOfReach)) ctx) :
    (find id >>= f).run.Yields setting c post broken ctx := by
  refine ⟨?_, hout⟩
  cases hrow : c.jobs.find? id with
  | none => exact hnone hrow
  | some row => exact hfound row hrow

/-- A body that lets a handler do something goes on after each conversation in which the handler
ends well, and fails if the handler does. -/
theorem yields_ofHandling_bind {handling : Handling ε} {f : Unit → Command ε β}
    (hdone : ∀ said calls ctx', handling.run.Leads said (.done (.ok ())) →
      ctx.ServesAll said calls ctx' → (∀ exchange ∈ said, c.Tells setting exchange) →
      (f ()).run.Yields setting c post broken ctx')
    (hfailed : ∀ e ctx', post (.error (.failed e)) ctx') (hbroken : ∀ reason, broken reason) :
    (ofHandling handling >>= f).run.Yields setting c post broken ctx := by
  refine yields_bind.2 (Interaction.yields_bind.2 (yields_of_leads ?_ hbroken))
  intro said calls outcome ctx' hleads hserved htold
  cases outcome with
  | ok value => exact hdone said calls ctx' hleads hserved htold
  | error e => exact hfailed e ctx'

end Command

/-! ## Transactions -/

namespace Transaction

open Routine

variable {setting : Setting} {c : Contents} {limit : Duration}
  {post : Except TransactionError α → Contents → Prop}

/-- As promised, a transaction whose body has ended fails without effect, or hands in what was
gathered as one batch. -/
def Closes (setting : Setting) (limit : Duration)
    (post : Except TransactionError α → Contents → Prop) (c : Contents) :
    Except TransactionError α → Context → Prop
  | .error e, _ => post (.error e) c
  | .ok a, ctx =>
    if ctx.exceeds limit then post (.error (.timedOut limit)) c
    else
      (∀ c', c.Takes ctx.writes c' → post (.ok a) c') ∧
        (∀ e, c.Refuses ctx.writes e → post (.error (.ofStore e)) c) ∧
          (setting.outages → post (.error (.ofStore Store.outOfReach)) c)

theorem closes_error {e : TransactionError} {ctx : Context} (h : post (.error e) c) :
    Closes setting limit post c (.error e) ctx := h

theorem ensures_commit {ctx : Context} {a : α}
    (htaken : ∀ c', c.Takes ctx.writes c' → post (.ok a) c')
    (hrefused : ∀ e, c.Refuses ctx.writes e → post (.error (.ofStore e)) c)
    (hout : setting.outages → post (.error (.ofStore Store.outOfReach)) c) :
    (commit (ε := ε) ctx a).Ensures setting post c := by
  unfold commit
  split
  · rename_i hempty
    exact ensures_notifyAll ctx.raised (htaken c (by rw [hempty]; exact Contents.takes_nil.2 rfl))
  · refine ensures_apply_bind (fun rows c' htakes => ?_) hrefused hout
    exact ensures_notifyAll ctx.raised (htaken c' htakes)

theorem ensures_runFrom {body : Interaction (Request ε) (Except TransactionError α)} {ctx : Context}
    (h : body.Yields setting c (Closes setting limit post c)
      (fun reason => post (.error (.failed (.ofAbort reason))) c) ctx) :
    (runFrom limit body ctx).Ensures setting post c := by
  induction body generalizing ctx with
  | done outcome =>
    cases outcome with
    | error e => exact h
    | ok a =>
      rw [runFrom]
      have hcloses : Closes setting limit post c (.ok a) ctx := h
      rw [Closes] at hcloses
      split
      · rename_i hlimit
        rwa [if_pos hlimit] at hcloses
      · rename_i hlimit
        rw [if_neg hlimit] at hcloses
        exact ensures_commit hcloses.1 hcloses.2.1 hcloses.2.2
  | abort reason => exact h
  | ask q next ih =>
    cases q with
    | find id =>
      obtain ⟨hfound, hout⟩ := h
      rw [runFrom]
      refine ensures_get ?_ fun houtage => ih _ (hout houtage)
      cases hrow : c.jobs.find? id with
      | none =>
        rw [hrow] at hfound
        exact ih _ hfound
      | some row =>
        rw [hrow] at hfound
        exact ih _ hfound
    | draw =>
      rw [runFrom]
      exact ensures_ask rfl fun id => ih id (h id)
    | wallClock =>
      rw [runFrom]
      exact ensures_ask rfl fun t => ih t (h t)
    | foreign q =>
      rw [runFrom]
      refine ensures_ask rfl fun answer => ?_
      cases answer with
      | ok b => exact ih b (h.1 b)
      | error reason => exact h.2 reason
    | _ => exact ih _ h

/-- A transaction that is alone with the store keeps the promise if its body, begun at whatever
time, yields what closes it as promised. -/
theorem ensures_run {command : Command ε α}
    (h : ∀ now, command.run.Yields setting c (Closes setting limit post c)
      (fun reason => post (.error (.failed (.ofAbort reason))) c) { now := now }) :
    (run limit command).Ensures setting post c :=
  ensures_ask rfl fun now => ensures_runFrom (h now)

/-- A body that let no time pass closes unless its batch is refused or the transaction is hindered:
by an outage, or by a limit for which no body is fast enough. -/
theorem closes_of_unspent {ctx : Context} {a : α} (hspent : ctx.spent = .zero)
    (htaken : ∀ c', c.Takes ctx.writes c' → post (.ok a) c')
    (hrefused : ∀ e, c.Refuses ctx.writes e → post (.error (.ofStore e)) c)
    (hhindered : limit = .zero ∨ setting.outages →
      ∀ e, e.isContention = false → post (.error e) c) :
    Closes setting limit post c (.ok a) ctx := by
  rw [Closes]
  split
  · rename_i hlimit
    refine hhindered (.inl ?_) _ rfl
    simp only [Context.exceeds, hspent, Bool.or_eq_true, decide_eq_true_eq] at hlimit
    exact hlimit.resolve_right (Nat.not_lt_zero _)
  · exact ⟨htaken, hrefused, fun hout => hhindered (.inr hout) _ rfl⟩

/-- A body that let no time pass and staged what the store takes commits, unless it is hindered. -/
theorem closes_of_takes {ctx : Context} {a : α} {c' : Contents} (hspent : ctx.spent = .zero)
    (htakes : c.Takes ctx.writes c') (hok : post (.ok a) c')
    (hhindered : limit = .zero ∨ setting.outages →
      ∀ e, e.isContention = false → post (.error e) c) :
    Closes setting limit post c (.ok a) ctx := by
  refine closes_of_unspent hspent (fun c₁ htaken => ?_) (fun e hrefuses => ?_) hhindered
  · rwa [htaken.unique htakes]
  · exact (htakes.not_refuses hrefuses).elim

/-- A transaction that may fail in any way commits what the store takes, or fails. -/
theorem closes_of_failed {ctx : Context} {a : α} (hfailed : ∀ e, post (.error e) c)
    (htaken : ∀ c', c.Takes ctx.writes c' → post (.ok a) c') :
    Closes setting limit post c (.ok a) ctx := by
  rw [Closes]
  split
  · exact hfailed _
  · exact ⟨htaken, fun e _ => hfailed (.ofStore e), fun _ => hfailed (.ofStore Store.outOfReach)⟩

end Transaction

end DeferredWork
