import DeferredWork.Proofs.Routine.Concluding

set_option autoImplicit false

/-!
# What a routine leaves in its cluster

Besides what it commits, a routine can be noticed by the incidents that it tells the operators of and
by its wake-ups.  In surroundings that commit nothing and signal nothing themselves
(`Surroundings.IsPassive`), what a routine concludes when it is alone with the store is what comes of
running it in a cluster, and the cluster then shows the signals that it gave, in their order, and no
others (`World.run_concluded`).
-/

namespace DeferredWork

variable {ε : Type → Type} {σ α β : Type}

/-! ## Signals -/

namespace Exchange

/-- The incident that the operators are told of. -/
def notice? : Exchange (Call ε) → Option Incident
  | ⟨.notify incident, _⟩ => some incident
  | _ => none

/-- The acquisition is woken up. -/
def wakes : Exchange (Call ε) → Bool
  | ⟨.wake, _⟩ => true
  | _ => false

end Exchange

namespace World

variable {w w₁ w' : World σ} {said more : List (Exchange (Call ε))} {outages : Prop}

/-- The store holds the same, the operators were told the same, and the trigger is as it was. -/
structure Keeps (w w' : World σ) : Prop where
  contents : w'.cluster.store.contents = w.cluster.store.contents
  notices : w'.cluster.notices = w.cluster.notices
  trigger : w'.cluster.trigger = w.cluster.trigger

/-- The same, and the store has not gone out of reach unless there are outages. -/
structure Stands (outages : Prop) (w w' : World σ) : Prop extends w.Keeps w' where
  reach : w'.cluster.store.available = false → w.cluster.store.available = false ∨ outages

theorem Stands.refl (w : World σ) : w.Stands outages w := ⟨⟨rfl, rfl, rfl⟩, .inl⟩

/-- The operators were told, and the acquisition was woken up, as in a conversation. -/
structure Shows (w : World σ) (said : List (Exchange (Call ε))) (w' : World σ) : Prop where
  notices : w'.cluster.notices = w.cluster.notices.map (· ++ said.filterMap Exchange.notice?)
  trigger : w'.cluster.trigger =
    if said.any Exchange.wakes then w.cluster.trigger.fire else w.cluster.trigger

theorem map_append_nil (notices : Option (List Incident)) : notices.map (· ++ []) = notices := by
  cases notices with
  | none => rfl
  | some told => rw [Option.map_some, List.append_nil]

/-- A conversation without signals shows nothing. -/
theorem shows_of_silent (hnotices : w'.cluster.notices = w.cluster.notices)
    (htrigger : w'.cluster.trigger = w.cluster.trigger)
    (htold : said.filterMap Exchange.notice? = []) (hwakes : said.any Exchange.wakes = false) :
    w.Shows said w' where
  notices := by rw [hnotices, htold, map_append_nil]
  trigger := by rw [htrigger, hwakes, if_neg Bool.false_ne_true]

theorem Shows.append (h : w.Shows said w₁) (hmore : w₁.Shows more w') :
    w.Shows (said ++ more) w' where
  notices := by
    rw [hmore.notices, h.notices, List.filterMap_append]
    cases w.cluster.notices <;> simp
  trigger := by
    rw [hmore.trigger, h.trigger, List.any_append]
    cases said.any Exchange.wakes <;> cases more.any Exchange.wakes <;> rfl

theorem Shows.keeps (h : w.Shows said w')
    (hcontents : w'.cluster.store.contents = w.cluster.store.contents)
    (htold : said.filterMap Exchange.notice? = []) (hwakes : said.any Exchange.wakes = false) :
    w.Keeps w' where
  contents := hcontents
  notices := by rw [h.notices, htold, map_append_nil]
  trigger := by rw [h.trigger, hwakes, if_neg Bool.false_ne_true]

end World

/-! ## Passive surroundings -/

/-- The surroundings let every call of the store through, commit nothing and signal nothing.  They
may move the clocks and, if there are outages, the store out of reach and back. -/
structure Surroundings.IsPassive (s : Surroundings ε σ) (outages : Prop) : Prop where
  before_passes (point : StorePoint) (w : World σ) : (s.before point w).1 = .ok ()
  before_stands (point : StorePoint) (w : World σ) : w.Stands outages (s.before point w).2
  after_passes (point : StorePoint) (w : World σ) : (s.after point w).1 = .ok ()
  after_stands (point : StorePoint) (w : World σ) : w.Stands outages (s.after point w).2
  answer_stands {β : Type} (question : ε β) (w : World σ) :
    w.Stands outages (s.answer question w).2

/-- Surroundings that do nothing are passive if their answers are. -/
theorem Surroundings.quiet_isPassive {outages : Prop}
    {answer : {β : Type} → ε β → World σ → Except String β × World σ}
    (hanswer : ∀ {β : Type} (q : ε β) w, World.Stands outages w (answer q w).2) :
    (Surroundings.quiet σ answer).IsPassive outages where
  before_passes _ _ := rfl
  before_stands _ := .refl
  after_passes _ _ := rfl
  after_stands _ := .refl
  answer_stands := hanswer

namespace Cluster

theorem takeToken_signals (c : Cluster) (seat : Nat) (scope : ScopeId) :
    (c.takeToken seat scope).2.notices = c.notices ∧
      (c.takeToken seat scope).2.trigger = c.trigger := by
  unfold takeToken
  split <;> exact ⟨rfl, rfl⟩

theorem dispatch_signals (c : Cluster) (seat : Nat) (d : Dispatched) :
    (c.dispatch seat d).2.notices = c.notices ∧ (c.dispatch seat d).2.trigger = c.trigger := by
  unfold dispatch
  split
  · split <;> exact ⟨rfl, rfl⟩
  · exact ⟨rfl, rfl⟩

end Cluster

theorem Store.inStore_contents (s : Store) : s.contents.inStore s.available = s := rfl

namespace World

variable {s : Surroundings ε σ} {outages : Prop}

/-- A call is answered as it may be while the routine is alone with the store, and the cluster shows
the signal that it is. -/
structure AnsweredAlone (outages : Prop) (w : World σ) (call : Call ε β) (answer : β)
    (w' : World σ) : Prop where
  answered : ∃ available s', (available = false → outages) ∧
    call.Answered (w.cluster.store.contents.inStore available) answer s' ∧
      s'.contents = w'.cluster.store.contents
  shows_call : w.Shows [⟨call, answer⟩] w'
  reach : w'.cluster.store.available = false → outages

theorem callStore_answeredAlone (hs : s.IsPassive outages) {w : World σ}
    (hreach : w.cluster.store.available = false → outages) (call : StoreCall β) :
    w.AnsweredAlone outages (.store call : Call ε (Except Fault β)) (w.callStore s call).1
      (w.callStore s call).2 := by
  have hpasses := hs.before_passes call.point w
  have hbefore := hs.before_stands call.point w
  unfold callStore
  generalize s.before call.point w = first at hpasses hbefore ⊢
  obtain ⟨outcome, w₁⟩ := first
  obtain rfl : outcome = .ok () := hpasses
  dsimp only at hbefore ⊢
  have hreach₁ : w₁.cluster.store.available = false → outages := fun h =>
    (hbefore.reach h).elim hreach id
  have hstore : w.cluster.store.contents.inStore w₁.cluster.store.available = w₁.cluster.store := by
    rw [← hbefore.contents, Store.inStore_contents]
  -- The store answers, and the surroundings leave it at that.
  have hrespond : ∀ answer s', w₁.cluster.store.respond call = (answer, s') →
      ((.store call : Call ε (Except Fault β)).Answered
        (w.cluster.store.contents.inStore w₁.cluster.store.available) answer s') ∧
        s'.available = w₁.cluster.store.available := by
    intro answer s' h
    have hanswered : (.store call : Call ε (Except Fault β)).Answered w₁.cluster.store answer s' := h
    rw [hstore]
    exact ⟨hanswered, hanswered.available⟩
  rw [Store.respond] at hrespond
  cases hperform : w₁.cluster.store.perform call with
  | mk result s₁ =>
    rw [hperform] at hrespond
    cases result with
    | error e =>
      obtain ⟨hanswered, hsame⟩ := hrespond _ _ rfl
      exact ⟨⟨_, s₁, hreach₁, hanswered, rfl⟩,
        shows_of_silent hbefore.notices hbefore.trigger rfl rfl, fun h => hreach₁ (hsame ▸ h)⟩
    | ok b =>
      obtain ⟨hanswered, hsame⟩ := hrespond _ _ rfl
      dsimp only
      generalize hw₂ : w₁.modify (fun c => { c with store := s₁ }) = w₂
      have hpasses' := hs.after_passes call.point w₂
      have hafter := hs.after_stands call.point w₂
      generalize s.after call.point w₂ = second at hpasses' hafter ⊢
      obtain ⟨outcome, w'⟩ := second
      obtain rfl : outcome = .ok () := hpasses'
      subst hw₂
      refine ⟨⟨_, s₁, hreach₁, hanswered, hafter.contents.symm⟩,
        shows_of_silent (hafter.notices.trans hbefore.notices)
          (hafter.trigger.trans hbefore.trigger) rfl rfl, fun h => ?_⟩
      exact (hafter.reach h).elim (fun h => hreach₁ (hsame ▸ h)) id

theorem answer_answeredAlone (hs : s.IsPassive outages) {w : World σ}
    (hreach : w.cluster.store.available = false → outages) (seat : Nat) (call : Call ε β) :
    w.AnsweredAlone outages call (w.answer s seat call).1 (w.answer s seat call).2 := by
  -- A call that leaves the store alone is answered whatever the store is.
  have haside : ∀ {call : Call ε β} {answer : β} {w' : World σ},
      (∀ t : Store, call.Answered t answer t) → w'.cluster.store = w.cluster.store →
      w.Shows [⟨call, answer⟩] w' → w.AnsweredAlone outages call answer w' := by
    intro call answer w' hany hsame hshows
    refine ⟨⟨w.cluster.store.available, w.cluster.store, hreach, hany _, ?_⟩, hshows, ?_⟩
    · rw [hsame]
    · rwa [hsame]
  cases call with
  | store call => exact callStore_answeredAlone hs hreach call
  | takeToken scope =>
    obtain ⟨hnotices, htrigger⟩ := w.cluster.takeToken_signals seat scope
    exact haside (fun _ => rfl) (w.cluster.store_takeToken seat scope)
      (shows_of_silent hnotices htrigger rfl rfl)
  | dispatch d =>
    obtain ⟨hnotices, htrigger⟩ := w.cluster.dispatch_signals seat d
    exact haside (fun _ => rfl) (w.cluster.store_dispatch seat d)
      (shows_of_silent hnotices htrigger rfl rfl)
  | notify incident => exact haside (fun _ => rfl) rfl ⟨rfl, rfl⟩
  | wake => exact haside (fun _ => rfl) rfl ⟨(map_append_nil _).symm, rfl⟩
  | foreign q =>
    have hstands := hs.answer_stands q w
    exact ⟨⟨w.cluster.store.available, w.cluster.store, hreach, rfl, hstands.contents.symm⟩,
      shows_of_silent hstands.notices hstands.trigger rfl rfl,
      fun h => (hstands.reach h).elim hreach id⟩
  | _ => exact haside (fun _ => rfl) rfl (shows_of_silent rfl rfl rfl rfl)

/-- In passive surroundings, a routine that concludes alone is run to its end as it concludes, and
the cluster shows the signals that it gave. -/
theorem run_concluded {outlook : Outlook ε} (hs : s.IsPassive outlook.outages)
    (hanything : ∀ exchange, outlook.possible exchange) (seat : Nat) {r : Routine ε α} {w : World σ}
    {post : List (Exchange (Call ε)) → α → Contents → Prop}
    (h : r.Concludes outlook post w.cluster.store.contents)
    (hreach : w.cluster.store.available = false → outlook.outages) :
    ∃ said a w', run s seat r w = (.ok a, w') ∧ post said a w'.cluster.store.contents ∧
      w.Shows said w' := by
  induction r generalizing w post with
  | done a => exact ⟨[], a, w, rfl, h, shows_of_silent rfl rfl rfl rfl⟩
  | abort reason => exact h.elim
  | ask call next ih =>
    obtain ⟨⟨available, s', hout, hanswered, hcontents⟩, hshows, hreach'⟩ :=
      answer_answeredAlone hs hreach seat call
    have hnext := h available hout _ s' hanswered (hanything _)
    rw [hcontents] at hnext
    obtain ⟨said, a, w', hrun, hpost, hmore⟩ := ih _ hnext hreach'
    exact ⟨_ :: said, a, w', hrun, hpost, hshows.append hmore⟩

end World

end DeferredWork
