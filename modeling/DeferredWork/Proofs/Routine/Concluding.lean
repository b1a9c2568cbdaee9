import DeferredWork.Proofs.Routine.Conduct
import DeferredWork.Proofs.Routine.Solitude

set_option autoImplicit false

/-!
# What was said when a routine has ended

While nobody else commits anything, a routine may be promised to end with a certain value, certain
contents and a certain conversation behind it, whatever it is told of what it has to reckon with
(`Routine.Concludes`).  The promise is computed along the routine, call by call; what a part ensures
of the contents can be used with what it says (`Routine.Ensures.concludes`); and every run to the end
that meets nothing else keeps it (`Routine.Runs.concluded`).
-/

namespace DeferredWork

variable {ε : Type → Type} {α β : Type}

/-- What a routine has to reckon with that is alone with the store: outages, and the answers that it
may get. -/
structure Outlook (ε : Type → Type) where
  /-- The store may be out of reach. -/
  outages : Prop
  possible : Exchange (Call ε) → Prop := fun _ => True

namespace Outlook

/-- The store may go out of reach and come back at any time, and anything may be answered. -/
def unreliable : Outlook ε := { outages := True }

/-- The same, whatever is answered. -/
def setting (outlook : Outlook ε) : Setting := { outages := outlook.outages }

/-- The event is one that the routine has to reckon with. -/
def Includes (outlook : Outlook ε) : Event ε → Prop
  | .own exchange => outlook.possible exchange
  | .other _ => False
  | .reach value => value = false → outlook.outages

theorem unreliable_includes_of_alone {trace : List (Event ε)}
    (h : trace.filterMap Event.others? = []) : ∀ event ∈ trace, unreliable.Includes event := by
  intro event hmem
  cases event with
  | own exchange => trivial
  | other batch => cases List.filterMap_eq_nil_iff.1 h _ hmem
  | reach value => exact fun _ => trivial

end Outlook

namespace Routine

variable {outlook : Outlook ε} {post : List (Exchange (Call ε)) → α → Contents → Prop}
  {c : Contents}

/-- Alone with a store that holds this, and whatever it is told, a routine does not break off, and
ends with a conversation, a value and contents as promised. -/
def Concludes (outlook : Outlook ε) (post : List (Exchange (Call ε)) → α → Contents → Prop) :
    Routine ε α → Contents → Prop
  | .done a, c => post [] a c
  | .abort _, _ => False
  | .ask call next, c =>
    ∀ available, (available = false → outlook.outages) → ∀ answer s',
      call.Answered (c.inStore available) answer s' → outlook.possible ⟨call, answer⟩ →
        Concludes outlook (fun said => post (⟨call, answer⟩ :: said)) (next answer) s'.contents

/-! ## Rules -/

theorem Concludes.mono {post' : List (Exchange (Call ε)) → α → Contents → Prop} {r : Routine ε α}
    (h : r.Concludes outlook post c) (hpost : ∀ said a c, post said a c → post' said a c) :
    r.Concludes outlook post' c := by
  induction r generalizing c post post' with
  | done a => exact hpost [] a c h
  | abort reason => exact h
  | ask call next ih =>
    exact fun available hreach answer s' hanswered hpossible =>
      ih answer (h available hreach answer s' hanswered hpossible) fun said => hpost (_ :: said)

theorem concludes_bind {post : List (Exchange (Call ε)) → β → Contents → Prop} {x : Routine ε α}
    {f : α → Routine ε β} (h : x.Concludes outlook (fun said a c =>
      (f a).Concludes outlook (fun more => post (said ++ more)) c) c) :
    Concludes outlook post (x.bind f) c := by
  induction x generalizing c post with
  | done a => exact h
  | abort reason => exact h
  | ask call next ih =>
    exact fun available hreach answer s' hanswered hpossible =>
      ih answer (h available hreach answer s' hanswered hpossible)

/-- What is to be done in case of a break does not matter to a routine that does not break off. -/
theorem Concludes.onAbort {r : Routine ε α} (h : r.Concludes outlook post c)
    (cleanup : Routine ε Unit) : Concludes outlook post (Interaction.onAbort cleanup r) c := by
  induction r generalizing c post with
  | done a => exact h
  | abort reason => exact h.elim
  | ask call next ih =>
    exact fun available hreach answer s' hanswered hpossible =>
      ih answer (h available hreach answer s' hanswered hpossible)

/-- A routine that makes a call goes on with what the call alone ensures. -/
theorem concludes_ask {call : Call ε β} {next : β → Routine ε α} {told : β → Contents → Prop}
    (hcall : Ensures outlook.setting told (.ask call .done) c)
    (hnext : ∀ b c', told b c' → outlook.possible ⟨call, b⟩ →
      (next b).Concludes outlook (fun said => post (⟨call, b⟩ :: said)) c') :
    Concludes outlook post (.ask call next) c :=
  fun available hreach answer s' hanswered =>
    hnext answer s'.contents (hcall.2 available hreach answer s' hanswered)

/-- A call that is not one of the store leaves what the store holds as it is. -/
theorem concludes_aside {call : Call ε β} {next : β → Routine ε α} (hcall : call.isAside = true)
    (hnext : ∀ b, outlook.possible ⟨call, b⟩ →
      (next b).Concludes outlook (fun said => post (⟨call, b⟩ :: said)) c) :
    Concludes outlook post (.ask call next) c := by
  have hsame : Ensures outlook.setting (fun _ c' => c' = c) (.ask call .done) c :=
    ensures_ask hcall fun _ => rfl
  exact concludes_ask hsame fun b _ heq => heq ▸ hnext b

theorem concludes_query_bind {call : Call ε β} {f : β → Routine ε α} (hcall : call.isAside = true)
    (hnext : ∀ b, outlook.possible ⟨call, b⟩ →
      (f b).Concludes outlook (fun said => post (⟨call, b⟩ :: said)) c) :
    Concludes outlook post ((Interaction.query call).bind f) c :=
  concludes_aside hcall hnext

/-- A job is handed to the pool, which may take it or not. -/
theorem concludes_dispatch_bind {d : Dispatched} {f : Bool → Routine ε α}
    (hnext : ∀ taken, outlook.possible ⟨.dispatch d, taken⟩ →
      (f taken).Concludes outlook (fun said => post (⟨.dispatch d, taken⟩ :: said)) c) :
    Concludes outlook post ((Interaction.query (.dispatch d)).bind f) c := by
  have hsame : Ensures outlook.setting (fun _ c' => c' = c)
      (.ask (.dispatch d : Call ε Bool) .done) c :=
    ensures_dispatch trivial fun _ => rfl
  exact concludes_ask hsame fun taken _ heq => heq ▸ hnext taken

/-! ## Calls of the store -/

variable {setting : Setting}

theorem ensures_callGet (id : JobId) :
    (callStore (.get id) : Routine ε (Except StoreError (Option Job))).Ensures setting
      (fun result c' => c' = c ∧ (result = .ok (c.jobs.find? id) ∨
        setting.outages ∧ result = .error Store.outOfReach)) c := by
  rw [← Interaction.bind_done (callStore (.get id))]
  exact ensures_get_bind ⟨rfl, .inl rfl⟩ fun hout => ⟨rfl, .inr ⟨hout, rfl⟩⟩

theorem ensures_callFindDue (now : Instant) (limit : Nat) :
    (callStore (.findDue now limit) : Routine ε (Except StoreError (List Job))).Ensures setting
      (fun result c' => c' = c ∧ (result = .ok (c.jobs.poll now limit) ∨
        setting.outages ∧ result = .error Store.outOfReach)) c := by
  rw [← Interaction.bind_done (callStore (.findDue now limit))]
  exact ensures_findDue_bind ⟨rfl, .inl rfl⟩ fun hout => ⟨rfl, .inr ⟨hout, rfl⟩⟩

theorem ensures_callApply (batch : List Write) :
    (callStore (.apply batch) : Routine ε (Except StoreError (List Job))).Ensures setting
      (fun result c' => (∃ rows, result = .ok rows ∧ c.Takes batch c') ∨
        ∃ e, result = .error e ∧ c' = c ∧ (c.Refuses batch e ∨ setting.outages)) c := by
  rw [← Interaction.bind_done (callStore (.apply batch))]
  exact ensures_apply_bind (fun rows _ htakes => .inl ⟨rows, rfl, htakes⟩)
    (fun e hrefuses => .inr ⟨e, rfl, rfl, .inl hrefuses⟩) fun hout => .inr ⟨_, rfl, rfl, .inr hout⟩

/-- A call of the store is answered, and what it alone ensures of the contents can be used. -/
theorem concludes_callStore_bind {call : StoreCall β} {f : Except StoreError β → Routine ε α}
    {told : Except StoreError β → Contents → Prop}
    (hcall : Ensures outlook.setting told (callStore call : Routine ε (Except StoreError β)) c)
    (hok : ∀ b c', told (.ok b) c' →
      (f (.ok b)).Concludes outlook (fun said => post (⟨.store call, .ok b⟩ :: said)) c')
    (herror : ∀ e c', told (.error e) c' → (f (.error e)).Concludes outlook
      (fun said => post (⟨.store call, .error (.refused e)⟩ :: said)) c') :
    Concludes outlook post ((callStore call).bind f) c := by
  intro available hreach answer s' hanswered _
  have htold := hcall.2 available hreach answer s' hanswered
  match answer, htold with
  | .ok b, htold => exact hok b s'.contents htold
  | .error (.refused e), htold => exact herror e s'.contents htold
  | .error (.crashed reason), htold => exact htold.elim

/-- What a routine ensures of the contents goes together with the rules that it keeps. -/
theorem Ensures.concludes {conduct : Conduct ε} {post : α → Contents → Prop}
    {kept : List (Exchange (Call ε)) → α → Prop} {r : Routine ε α}
    {before : List (Exchange (Call ε))} (h : r.Ensures outlook.setting post c)
    (hkeeps : r.Keeps conduct.rules kept before) :
    r.Concludes outlook (fun said a c' => post a c' ∧ kept (before ++ said) a) c := by
  induction r generalizing c before with
  | done a => exact ⟨h, (List.append_nil before).symm ▸ hkeeps⟩
  | abort reason => exact h
  | ask call next ih =>
    intro available hreach answer s' hanswered _
    have hnext := ih answer (h.2 available hreach answer s' hanswered)
      (hkeeps.2 answer hanswered.plausible)
    refine hnext.mono fun said a c' hpost => ⟨hpost.1, ?_⟩
    rw [List.append_cons]
    exact hpost.2

/-! ## Undisturbed runs -/

/-- In a run to its end that meets only what it has to reckon with, a routine keeps its promise. -/
theorem Runs.concluded {s s' : Store} {r r' : Routine ε α} {trace : List (Event ε)}
    (h : Runs s r trace s' r') (hconcludes : r.Concludes outlook post s.contents)
    (hreach : s.available = false → outlook.outages)
    (htrace : ∀ event ∈ trace, outlook.Includes event) (hover : r'.isOver = true) :
    ∃ a, r' = .done a ∧ post (trace.filterMap Event.own?) a s'.contents := by
  induction h generalizing post with
  | stop s r =>
    cases r with
    | done a => exact ⟨a, rfl, hconcludes⟩
    | abort reason => exact hconcludes.elim
    | ask call next => cases hover
  | @own _ call answer next s s₁ s' trace r' answered rest ih =>
    obtain ⟨hpossible, htrace⟩ := List.forall_mem_cons.1 htrace
    refine ih (hconcludes s.available hreach answer s₁ answered hpossible) (fun hout => hreach ?_)
      htrace hover
    rw [← hout]
    exact answered.available.symm
  | other accepted rest ih => exact (List.forall_mem_cons.1 htrace).1.elim
  | reach rest ih =>
    obtain ⟨hvalue, htrace⟩ := List.forall_mem_cons.1 htrace
    exact ih hconcludes hvalue htrace hover

end Routine

end DeferredWork
