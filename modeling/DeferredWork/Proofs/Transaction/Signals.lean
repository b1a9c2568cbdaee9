import DeferredWork.Proofs.Cluster.Signals
import DeferredWork.Proofs.Transaction.Solitude

set_option autoImplicit false

/-!
# What the operators are told of a transaction

A transaction tells the operators of the incidents that its body raised once it has committed, and of
nothing if it fails; it wakes nobody up.  So a promise about the end of a transaction that is alone
with the store may speak of what the operators were told in it (`Transaction.concludes_run`).
-/

namespace DeferredWork

variable {ε : Type → Type} {α : Type} {outlook : Outlook ε} {c : Contents}

namespace Routine

variable {post : List (Exchange (Call ε)) → α → Contents → Prop}

/-- A reading tells what the store holds, unless it is out of reach. -/
theorem concludes_get {id : JobId} {next : Except Fault (Option Job) → Routine ε α}
    (hfound : (next (.ok (c.jobs.find? id))).Concludes outlook
      (fun said => post (⟨.store (.get id), .ok (c.jobs.find? id)⟩ :: said)) c)
    (hout : outlook.outages → (next (.error (.refused Store.outOfReach))).Concludes outlook
      (fun said => post (⟨.store (.get id), .error (.refused Store.outOfReach)⟩ :: said)) c) :
    Concludes outlook post (.ask (.store (.get id)) next) c := by
  intro available hreach answer s' hanswered _
  rw [Call.Answered, Store.respond_get] at hanswered
  cases available with
  | true =>
    cases hanswered
    exact hfound
  | false =>
    cases hanswered
    exact hout (hreach rfl)

end Routine

/-- The conversation tells the operators of these incidents, and wakes nobody up. -/
structure Tells (said : List (Exchange (Call ε))) (incidents : List Incident) : Prop where
  told : said.filterMap Exchange.notice? = incidents
  wakes_nobody : said.any Exchange.wakes = false

theorem tells_nil : Tells (ε := ε) [] [] := ⟨rfl, rfl⟩

namespace Transaction

open Routine

/-- What the operators are told of a transaction whose body has ended like this. -/
def toldOf (ctx : Context) : Except TransactionError α → List Incident
  | .ok _ => ctx.raised
  | .error _ => []

variable {limit : Duration} {post : List Incident → Except TransactionError α → Contents → Prop}

/-- A conversation, a result and contents are as promised, with what the operators were told. -/
def Telling (post : List Incident → Except TransactionError α → Contents → Prop)
    (said : List (Exchange (Call ε))) (result : Except TransactionError α) (c : Contents) : Prop :=
  ∃ incidents, Tells said incidents ∧ post incidents result c

theorem Telling.cons {exchange : Exchange (Call ε)} {said : List (Exchange (Call ε))}
    {result : Except TransactionError α} (h : Telling post said result c)
    (hnotice : exchange.notice? = none) (hwakes : exchange.wakes = false) :
    Telling post (exchange :: said) result c := by
  obtain ⟨incidents, ⟨htold, hnobody⟩, hpost⟩ := h
  refine ⟨incidents, ⟨?_, ?_⟩, hpost⟩
  · rw [List.filterMap_cons_none hnotice, htold]
  · rw [List.any_cons, hwakes, hnobody, Bool.or_false]

/-- To tell the operators of incidents is all that is said. -/
theorem concludes_notifyAll (incidents : List Incident) (a : α) :
    Concludes outlook (fun said b c' => Tells said incidents ∧ b = a ∧ c' = c)
      ((notifyAll (ε := ε) incidents).bind fun _ => .done a) c := by
  induction incidents with
  | nil => exact ⟨tells_nil, rfl, rfl⟩
  | cons incident incidents ih =>
    refine concludes_aside rfl fun _ _ => ih.mono fun said b c' hend => ?_
    obtain ⟨⟨htold, hnobody⟩, hsame⟩ := hend
    exact ⟨⟨congrArg (incident :: ·) htold, hnobody⟩, hsame⟩

theorem telling_notifyAll {incidents : List Incident} {a : α} (h : post incidents (.ok a) c) :
    Concludes outlook (Telling post)
      ((notifyAll (ε := ε) incidents).bind fun _ => .done (.ok a)) c := by
  refine (concludes_notifyAll incidents (Except.ok a)).mono fun said result c' hend => ?_
  obtain ⟨htells, rfl, rfl⟩ := hend
  exact ⟨incidents, htells, h⟩

theorem concludes_commit {ctx : Context} {a : α}
    (htaken : ∀ c', c.Takes ctx.writes c' → post ctx.raised (.ok a) c')
    (hrefused : ∀ e, c.Refuses ctx.writes e → post [] (.error (.ofStore e)) c)
    (hout : outlook.outages → post [] (.error (.ofStore Store.outOfReach)) c) :
    (commit (ε := ε) ctx a).Concludes outlook (Telling post) c := by
  unfold commit
  split
  · rename_i hempty
    exact telling_notifyAll (htaken c (by rw [hempty]; exact Contents.takes_nil.2 rfl))
  · have hcall : Ensures outlook.setting
        (fun result c' => match result with
          | .ok _ => post ctx.raised (.ok a) c'
          | .error e => post [] (.error (.ofStore e)) c')
        (callStore (.apply ctx.writes) : Routine ε (Except StoreError (List Job))) c := by
      rw [← Interaction.bind_done (callStore (.apply ctx.writes))]
      exact ensures_apply_bind (fun _ c' htakes => htaken c' htakes) hrefused hout
    refine concludes_callStore_bind hcall (fun rows c' hpost => ?_) fun e c' hpost => ?_
    · exact (telling_notifyAll hpost).mono fun _ _ _ h => h.cons rfl rfl
    · exact Telling.cons ⟨[], tells_nil, hpost⟩ rfl rfl

theorem concludes_runFrom {body : Interaction (Request ε) (Except TransactionError α)}
    {ctx : Context}
    (h : body.Yields outlook.setting c
      (fun outcome ctx =>
        Closes outlook.setting limit (fun r => post (toldOf ctx r) r) c outcome ctx)
      (fun reason => post [] (.error (.failed (.ofAbort reason))) c) ctx) :
    (runFrom limit body ctx).Concludes outlook (Telling post) c := by
  have hcons : ∀ {r : Routine ε (Except TransactionError α)} {exchange : Exchange (Call ε)},
      r.Concludes outlook (Telling post) c → exchange.notice? = none → exchange.wakes = false →
      r.Concludes outlook (fun said => Telling post (exchange :: said)) c :=
    fun hrest hnotice hwakes => hrest.mono fun _ _ _ htelling => htelling.cons hnotice hwakes
  induction body generalizing ctx with
  | done outcome =>
    cases outcome with
    | error e => exact ⟨[], tells_nil, h⟩
    | ok a =>
      rw [runFrom]
      have hcloses : Closes outlook.setting limit (fun r => post (toldOf ctx r) r) c (.ok a) ctx := h
      rw [Closes] at hcloses
      split
      · rename_i hlimit
        rw [if_pos hlimit] at hcloses
        exact ⟨[], tells_nil, hcloses⟩
      · rename_i hlimit
        rw [if_neg hlimit] at hcloses
        exact concludes_commit hcloses.1 hcloses.2.1 hcloses.2.2
  | abort reason => exact ⟨[], tells_nil, h⟩
  | ask q next ih =>
    cases q with
    | find id =>
      obtain ⟨hfound, hout⟩ := h
      rw [runFrom]
      refine concludes_get ?_ fun houtage => hcons (ih _ (hout houtage)) rfl rfl
      cases hrow : c.jobs.find? id with
      | none =>
        rw [hrow] at hfound
        exact hcons (ih _ hfound) rfl rfl
      | some row =>
        rw [hrow] at hfound
        exact hcons (ih _ hfound) rfl rfl
    | draw =>
      rw [runFrom]
      exact concludes_aside rfl fun id _ => hcons (ih id (h id)) rfl rfl
    | wallClock =>
      rw [runFrom]
      exact concludes_aside rfl fun t _ => hcons (ih t (h t)) rfl rfl
    | foreign q =>
      rw [runFrom]
      refine concludes_aside rfl fun answer _ => ?_
      cases answer with
      | ok b => exact hcons (ih b (h.1 b)) rfl rfl
      | error reason => exact Telling.cons ⟨[], tells_nil, h.2 reason⟩ rfl rfl
    | _ => exact ih _ h

/-- **What a transaction signals.**  A transaction that is alone with the store keeps a promise about
its end and about what the operators are told, if its body, begun at whatever time, yields what closes
it as promised with the incidents that it raised. -/
theorem concludes_run {command : Command ε α}
    (h : ∀ now, command.run.Yields outlook.setting c
      (fun outcome ctx =>
        Closes outlook.setting limit (fun r => post (toldOf ctx r) r) c outcome ctx)
      (fun reason => post [] (.error (.failed (.ofAbort reason))) c) { now := now }) :
    (run limit command).Concludes outlook (Telling post) c :=
  concludes_aside rfl fun now _ => (concludes_runFrom (h now)).mono fun _ _ _ htelling =>
    htelling.cons rfl rfl

end Transaction

end DeferredWork
