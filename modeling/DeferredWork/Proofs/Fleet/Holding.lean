import DeferredWork.Proofs.Fleet.Standing

set_option autoImplicit false

/-!
# What tasks have in hand

An engine's tasks carry tokens of its scopes, and locks that they have taken or were dispatched with.
A token is in the hand of one task at a time (`Fleet.Reachable.tokensHeld`).
-/

namespace DeferredWork

variable {ι : Type} {ε : Type → Type} {β : Type} {engine : ι → Engine ε}

/-- What a task has in hand when it begins. -/
def Task.firstGrip : Task ι ε → Grip
  | .run _ d => .ofDispatched d
  | _ => {}

/-- What a task has in hand. -/
def Thread.grip (thread : Thread engine) : Grip := thread.task.firstGrip.through thread.talk

theorem Thread.grip_goOn (thread : Thread engine) {call : Call ε β}
    {next : β → Routine ε thread.task.Result} (asks : thread.rest = .ask call next) (answer : β) :
    (thread.goOn asks answer).grip = thread.grip.after ⟨call, answer⟩ :=
  Grip.through_append_singleton _ _ _

/-- A cycle takes a lock with the token of its row in hand. -/
theorem Thread.Locks.grip_token {thread : Thread engine} {jobs jobs' : JobTable} {ws : List Write}
    {seat : ι} {row : Job} {grant : Grant} {now : Instant}
    (h : thread.Locks jobs jobs' ws seat row grant now) :
    thread.grip.token = row.exclusivityScope := by
  obtain ⟨batch, htask⟩ := h.task
  rw [Thread.grip, htask]
  exact h.token

/-- A token that is in hand after a call was in hand before, or the call took it. -/
theorem Grip.token_of_after {grip : Grip} {exchange : Exchange (Call ε)} {scope : ScopeId}
    (h : (grip.after exchange).token = some scope) :
    grip.token = some scope ∨ exchange = ⟨.takeToken scope, true⟩ := by
  obtain ⟨question, answer⟩ := exchange
  cases question with
  | store call =>
    cases call with
    | apply ws => cases answer <;> exact .inl h
    | _ => exact .inl h
  | takeToken taken =>
    cases answer with
    | true =>
      obtain rfl : taken = scope := Option.some.inj h
      exact .inr rfl
    | false => exact .inl h
  | dispatch d =>
    cases answer with
    | true => cases h
    | false => exact .inl h
  | giveToken given => cases h
  | _ => exact .inl h

/-- A lock that is in hand after a call without a batch leaves the token as it was, or there is none. -/
theorem Grip.token_of_after_of_lock {grip : Grip} {exchange : Exchange (Call ε)} {grant : Grant}
    (h : (grip.after exchange).lock = some grant) :
    (grip.after exchange).token = none ∨ (grip.after exchange).token = grip.token := by
  obtain ⟨question, answer⟩ := exchange
  cases question with
  | store call =>
    cases call with
    | apply ws => cases answer <;> exact .inr rfl
    | _ => exact .inr rfl
  | takeToken taken =>
    cases answer with
    | true => cases h
    | false => exact .inr rfl
  | dispatch d =>
    cases answer with
    | true => cases h
    | false => exact .inr rfl
  | giveToken given => exact .inl rfl
  | _ => exact .inr rfl

/-- The scope whose token is given back. -/
def Exchange.given? : Exchange (Call ε) → Option ScopeId
  | ⟨.giveToken scope, _⟩ => some scope
  | _ => none

/-- With a token given back, none is in hand. -/
theorem Grip.token_of_given {grip : Grip} {exchange : Exchange (Call ε)} {scope : ScopeId}
    (h : exchange.given? = some scope) : (grip.after exchange).token = none := by
  obtain ⟨question, answer⟩ := exchange
  cases question with
  | giveToken given => rfl
  | _ => cases h

/-- A token that is held is held after a call that does not give it back. -/
theorem ScopeTokens.isHeld_after {tokens : ScopeTokens} {exchange : Exchange (Call ε)}
    {scope : ScopeId} (h : tokens.isHeld scope = true) (hnot : exchange.given? ≠ some scope) :
    (tokens.after exchange).isHeld scope = true := by
  obtain ⟨question, answer⟩ := exchange
  cases question with
  | takeToken taken =>
    cases answer with
    | true =>
      change ((tokens.take? taken).getD tokens).isHeld scope = true
      cases htaken : tokens.take? taken with
      | none => exact h
      | some after => exact (isHeld_take? htaken).2 (.inr h)
    | false => exact h
  | giveToken given =>
    refine isHeld_giveBack.2 ⟨?_, h⟩
    rintro rfl
    exact hnot rfl
  | _ => exact h

namespace Task

variable {scopesFixed : Prop} {task : Task ι ε} {talk : List (Exchange (Call ε))}

/-- An orderly task gives back no other token than the one in its hand. -/
theorem token_of_giveToken {scope : ScopeId}
    (h : (task.conduct engine scopesFixed).giveToken talk scope) :
    (task.firstGrip.through talk).token = some scope := by
  cases task with
  | acquire seat batch => exact h
  | run seat d => exact h
  | _ => exact h.elim

end Task

/-- A cycle dispatches a job with the token in its hand. -/
theorem Engine.Dispatches.token {owner : Owner} {talk : List (Exchange (Call ε))} {d : Dispatched}
    (h : Engine.Dispatches owner talk d) : d.token = (Grip.ofCycle talk).token := by
  cases h with
  | reread holds named owned carried =>
    rw [carried, Grip.ofCycle, Grip.through_append_singleton]
    exact holds.token.symm

namespace Fleet

variable {s : Store} {f : Fleet engine} {scopesFixed : Prop}

/-- The engine at a seat has a task at a place, and the task has this in hand. -/
def Holds (f : Fleet engine) (p : Place ι) (seat : ι) (grip : Grip) : Prop :=
  ∃ thread, f.threads p = some thread ∧ thread.task.seat? = some seat ∧ thread.grip = grip

/-- The tokens in the hands of tasks are given out, and no two tasks have the same one. -/
structure TokensHeld (f : Fleet engine) : Prop where
  held : ∀ {p seat grip scope}, f.Holds p seat grip → grip.token = some scope →
    (f.tokens seat).isHeld scope = true
  sole : ∀ {p q seat grip grip' scope}, f.Holds p seat grip → f.Holds q seat grip' →
    grip.token = some scope → grip'.token = some scope → p = q

variable [DecidableEq ι]

/-- A task that enters has nothing in hand. -/
theorem Holds.of_enter {place p : Place ι} {task : Task ι ε} {seat : ι} {grip : Grip}
    (h : (f.enter place task).Holds p seat grip) (suits : place.Suits task)
    (vacant : f.isVacant place = true) : grip = {} ∨ f.Holds p seat grip := by
  obtain ⟨thread, hp, hseat, rfl⟩ := h
  rw [threads_enter] at hp
  split at hp
  · cases hp
    left
    cases task with
    | run seat d =>
      cases place with
      | worker number => cases vacant
      | _ => cases suits
    | _ => rfl
  · exact .inr ⟨thread, hp, hseat, rfl⟩

section Turn

variable {place : Place ι} {thread : Thread engine} {call : Call ε β}
  {next : β → Routine ε thread.task.Result} {answer : β} {s' : Store}

/-- What tasks have in hand after a call: a new worker has what was dispatched to it, the task that
made the call has what the call left it, and the others have what they had. -/
theorem Holds.of_advance {asks : thread.rest = .ask call next} {p : Place ι} {seat : ι} {grip : Grip}
    (h : (f.advance ⟨place, thread.task, ⟨call, answer⟩⟩ (thread.goOn asks answer) s').Holds p seat
      grip) :
    (∃ d, Turn.accepted? (⟨place, thread.task, ⟨call, answer⟩⟩ : Turn ι ε) = some (seat, d) ∧
      p = .worker f.history.length ∧ grip = .ofDispatched d) ∨
    (p = place ∧ thread.task.seat? = some seat ∧ grip = thread.grip.after ⟨call, answer⟩) ∨
    (p ≠ place ∧ f.Holds p seat grip) := by
  obtain ⟨found, hp, hseat, rfl⟩ := h
  rcases threads_advance f _ _ s' hp with ⟨k, d, hacc, hplace, rfl⟩ | ⟨hplace, rfl⟩ | ⟨hplace, hp⟩
  · obtain rfl : k = seat := Option.some.inj hseat
    exact .inl ⟨d, hacc, hplace, rfl⟩
  · exact .inr (.inl ⟨hplace, hseat, thread.grip_goOn asks answer⟩)
  · exact .inr (.inr ⟨hplace, found, hp, hseat, rfl⟩)

/-- A new worker gets the token that the cycle had in hand, and the cycle has nothing any more. -/
theorem Reachable.hires (h : Reachable s f) (here : f.threads place = some thread)
    (asks : thread.rest = .ask call next) {seat : ι} {d : Dispatched}
    (hacc : Turn.accepted? (⟨place, thread.task, ⟨call, answer⟩⟩ : Turn ι ε) = some (seat, d)) :
    f.Holds place seat thread.grip ∧ Engine.Dispatches (engine seat).owner thread.talk d ∧
      d.token = thread.grip.token ∧ thread.grip.after ⟨call, answer⟩ = {} := by
  obtain ⟨batch, htask, hexchange⟩ := Turn.accepted?_eq_some_iff.1 hacc
  dsimp only at htask
  cases hexchange
  have hdispatches := h.dispatches here htask asks
  have hgrip : thread.grip = Grip.ofCycle thread.talk := by
    rw [Thread.grip, htask]
    rfl
  refine ⟨⟨thread, here, by rw [htask]; rfl, rfl⟩, hdispatches, ?_, rfl⟩
  rw [hgrip]
  exact hdispatches.token

/-- What the caller or its new worker has in hand after a call is in no other task's hand. -/
theorem Reachable.token_not_others (h : Reachable s f) (htokens : f.TokensHeld)
    (here : f.threads place = some thread) (asks : thread.rest = .ask call next)
    (replies : f.Replies thread.task.seat? call answer s') {seat : ι} {grip grip' : Grip}
    {scope : ScopeId} {q : Place ι}
    (hnew : (∃ d, Turn.accepted? (⟨place, thread.task, ⟨call, answer⟩⟩ : Turn ι ε) = some (seat, d) ∧
        grip = .ofDispatched d) ∨
      (thread.task.seat? = some seat ∧ grip = thread.grip.after ⟨call, answer⟩))
    (htoken : grip.token = some scope) (hother : f.Holds q seat grip') (hne : q ≠ place) :
    grip'.token ≠ some scope := by
  intro htoken'
  rcases hnew with ⟨d, hacc, rfl⟩ | ⟨hseat, rfl⟩
  · obtain ⟨hholds, -, hcarried, -⟩ := h.hires here asks hacc
    exact hne (htokens.sole hother hholds htoken' (hcarried.symm.trans htoken))
  · rcases Grip.token_of_after htoken with hbefore | htaken
    · exact hne (htokens.sole hother ⟨thread, here, hseat, rfl⟩ htoken' hbefore)
    · cases htaken
      have hfree : true = !(f.tokens seat).isHeld scope := replies.2 seat hseat
      rw [htokens.held hother htoken'] at hfree
      cases hfree

/-- A token that a call gives back was in the hand of the task that made the call. -/
theorem Reachable.token_of_given (h : Reachable s f) (here : f.threads place = some thread)
    (asks : thread.rest = .ask call next) (horderly : thread.task.IsOrderly engine scopesFixed)
    {scope : ScopeId} (hgiven : Exchange.given? ⟨call, answer⟩ = some scope) :
    thread.grip.token = some scope := by
  have hallowed := h.allowed here horderly asks
  cases call with
  | giveToken given =>
    obtain rfl : given = scope := Option.some.inj hgiven
    exact Task.token_of_giveToken hallowed
  | _ => cases hgiven

/-- A token that is given out stays so through a call of its engine, unless the call gives it back. -/
theorem isHeld_passTokens {tokens : ι → ScopeTokens} {exchange : Exchange (Call ε)} {scope : ScopeId}
    {caller? : Option ι} {seat : ι} (hheld : (tokens seat).isHeld scope = true)
    (hnot : caller? = some seat → exchange.given? ≠ some scope) :
    (passTokens tokens exchange caller? seat).isHeld scope = true := by
  cases caller? with
  | none => exact hheld
  | some k =>
    rw [passTokens, Function.update_apply]
    split
    · rename_i hk
      subst hk
      exact ScopeTokens.isHeld_after hheld (hnot rfl)
    · exact hheld

/-- The tokens in the hands of tasks are given out after an orderly call. -/
theorem Reachable.isHeld_advance (h : Reachable s f) (htokens : f.TokensHeld)
    (here : f.threads place = some thread) (asks : thread.rest = .ask call next)
    (replies : f.Replies thread.task.seat? call answer s')
    (horderly : thread.task.IsOrderly engine scopesFixed) {p : Place ι} {seat : ι} {grip : Grip}
    {scope : ScopeId}
    (hholds : (f.advance ⟨place, thread.task, ⟨call, answer⟩⟩ (thread.goOn asks answer) s').Holds p
      seat grip) (htoken : grip.token = some scope) :
    (passTokens f.tokens ⟨call, answer⟩ thread.task.seat? seat).isHeld scope = true := by
  rcases hholds.of_advance with ⟨d, hacc, -, rfl⟩ | ⟨-, hseat, rfl⟩ | ⟨hne, hother⟩
  · obtain ⟨hbefore, -, hcarried, -⟩ := h.hires here asks hacc
    obtain ⟨_, -, hexchange⟩ := Turn.accepted?_eq_some_iff.1 hacc
    dsimp only at hexchange
    refine isHeld_passTokens (htokens.held hbefore (hcarried.symm.trans htoken)) fun _ => ?_
    rw [hexchange]
    exact (nomatch ·)
  · rcases Grip.token_of_after htoken with hbefore | htaken
    · refine isHeld_passTokens (htokens.held ⟨thread, here, hseat, rfl⟩ hbefore) fun _ hgiven => ?_
      rw [Grip.token_of_given hgiven] at htoken
      cases htoken
    · cases htaken
      have hfree : true = !(f.tokens seat).isHeld scope := replies.2 seat hseat
      rw [hseat, passTokens, Function.update_self]
      cases htaken : (f.tokens seat).take? scope with
      | none =>
        rw [ScopeTokens.take?_eq_none_iff.1 htaken] at hfree
        cases hfree
      | some after =>
        change (((f.tokens seat).take? scope).getD (f.tokens seat)).isHeld scope = true
        rw [htaken]
        exact (ScopeTokens.isHeld_take? htaken).2 (.inl rfl)
  · refine isHeld_passTokens (htokens.held hother htoken) fun hseat hgiven => hne ?_
    have hown := h.token_of_given here asks horderly hgiven
    exact htokens.sole hother ⟨thread, here, hseat, rfl⟩ htoken hown

/-- An orderly call leaves tokens in the hands of single tasks. -/
theorem Reachable.tokensHeld_advance (h : Reachable s f) (htokens : f.TokensHeld)
    (here : f.threads place = some thread) (asks : thread.rest = .ask call next)
    (replies : f.Replies thread.task.seat? call answer s')
    (horderly : thread.task.IsOrderly engine scopesFixed) :
    (f.advance ⟨place, thread.task, ⟨call, answer⟩⟩ (thread.goOn asks answer) s').TokensHeld := by
  constructor
  · exact h.isHeld_advance htokens here asks replies horderly
  · intro p q seat grip grip' scope hholds hholds' htoken htoken'
    have hempty : ∀ {d}, Turn.accepted? (⟨place, thread.task, ⟨call, answer⟩⟩ : Turn ι ε) =
        some (seat, d) → (thread.grip.after ⟨call, answer⟩).token ≠ some scope := by
      intro d hacc hsome
      rw [(h.hires here asks hacc).2.2.2] at hsome
      cases hsome
    have hnot : ∀ {q grip grip'},
        (∃ d, Turn.accepted? (⟨place, thread.task, ⟨call, answer⟩⟩ : Turn ι ε) = some (seat, d) ∧
          grip = .ofDispatched d) ∨
        (thread.task.seat? = some seat ∧ grip = thread.grip.after ⟨call, answer⟩) →
        grip.token = some scope → q ≠ place → f.Holds q seat grip' → grip'.token ≠ some scope :=
      fun hnew htoken hne hother =>
        h.token_not_others htokens here asks replies hnew htoken hother hne
    rcases hholds.of_advance with ⟨d, hacc, rfl, rfl⟩ | ⟨rfl, hseat, rfl⟩ | ⟨hne, hother⟩
    · rcases hholds'.of_advance with ⟨-, -, rfl, -⟩ | ⟨-, -, rfl⟩ | ⟨hne', hother'⟩
      · rfl
      · exact absurd htoken' (hempty hacc)
      · exact absurd htoken' (hnot (.inl ⟨d, hacc, rfl⟩) htoken hne' hother')
    · rcases hholds'.of_advance with ⟨d, hacc, -, -⟩ | ⟨rfl, -, -⟩ | ⟨hne', hother'⟩
      · exact absurd htoken (hempty hacc)
      · rfl
      · exact absurd htoken' (hnot (.inr ⟨hseat, rfl⟩) htoken hne' hother')
    · rcases hholds'.of_advance with ⟨d, hacc, -, rfl⟩ | ⟨-, hseat, rfl⟩ | ⟨-, hother'⟩
      · exact absurd htoken (hnot (.inl ⟨d, hacc, rfl⟩) htoken' hne hother)
      · exact absurd htoken (hnot (.inr ⟨hseat, rfl⟩) htoken' hne hother)
      · exact htokens.sole hother hother' htoken htoken'

end Turn

/-- Tokens are in the hands of single tasks. -/
theorem Reachable.tokensHeld (h : Reachable s f) (honce : s.InsertsOnce f.log)
    (horderly : f.IsOrderly scopesFixed) : f.TokensHeld := by
  refine h.induction_on_turns ?_ ?_ ?_ ?_ honce horderly
  · constructor
    · rintro p seat grip scope ⟨thread, hp, -⟩
      cases hp
    · rintro p q seat grip grip' scope ⟨thread, hp, -⟩
      cases hp
  · intro f place task suits vacant htokens
    have hbefore : ∀ {p seat grip scope}, (f.enter place task).Holds p seat grip →
        grip.token = some scope → f.Holds p seat grip := by
      intro p seat grip scope hholds htoken
      rcases hholds.of_enter suits vacant with rfl | hbefore
      · cases htoken
      · exact hbefore
    exact ⟨fun hholds htoken => htokens.held (hbefore hholds htoken) htoken,
      fun hholds hholds' htoken htoken' =>
        htokens.sole (hbefore hholds htoken) (hbefore hholds' htoken') htoken htoken'⟩
  · intro f place thread β call next answer s' h _ _ here asks replies hthread _ htokens
    exact h.tokensHeld_advance htokens here asks replies hthread
  · exact fun value htokens => ⟨htokens.held, htokens.sole⟩

/-! ## Locks in hand -/

/-- What is known of the locks in the hands of tasks: their jobs were stored once and have the scope
of the token in hand, if there is one; the lock of a cycle is the only one in its engine's name on the
job, and so it was when the cycle read the job again. -/
structure KnowsLocks (s : Store) (f : Fleet engine) (scopesFixed : Prop) : Prop where
  born : ∀ {p seat grip grant}, f.Holds p seat grip → grip.lock = some grant →
    ∃ row, s.Bears f.log.flatten scopesFixed row ∧ row.id = grant.id ∧
      (grip.token = none ∨ grip.token = row.exclusivityScope)
  stored : ∀ {seat grip grant}, f.Holds (.cycle seat) seat grip → grip.lock = some grant →
    f.store.jobs.LockedOnlyUntil grant.id (engine seat).owner grant.expiry
  reread : ∀ {seat thread earlier row expiry}, f.threads (.cycle seat) = some thread →
    thread.task.seat? = some seat →
    thread.talk = earlier ++ [⟨.store (.get row.id), .ok (some row)⟩] →
    thread.grip.lock = some ⟨row.id, expiry⟩ → row.isLockedBy (engine seat).owner = true →
    row.lockedUntil = some expiry

section Turn

variable {place : Place ι} {thread : Thread engine} {call : Call ε β}
  {next : β → Routine ε thread.task.Result} {answer : β} {s' : Store}

/-- The job of a lock in hand was stored once. -/
theorem Reachable.born_advance (h : Reachable s f) (hremembers : f.Remembers s scopesFixed)
    (hknows : f.KnowsLocks s scopesFixed) (here : f.threads place = some thread)
    (asks : thread.rest = .ask call next) (replies : f.Replies thread.task.seat? call answer s')
    (horderly : thread.task.IsOrderly engine scopesFixed) {p : Place ι} {seat : ι} {grip : Grip}
    {grant : Grant}
    (hholds : (f.advance ⟨place, thread.task, ⟨call, answer⟩⟩ (thread.goOn asks answer) s').Holds p
      seat grip) (hlock : grip.lock = some grant) :
    ∃ row, s.Bears (f.log ++ (Event.batch? (.own ⟨call, answer⟩)).toList).flatten scopesFixed row ∧
      row.id = grant.id ∧ (grip.token = none ∨ grip.token = row.exclusivityScope) := by
  rw [List.flatten_append]
  have htold : ∀ {row}, row ∈ thread.talk.flatMap Exchange.told →
      s.Bears f.log.flatten scopesFixed row :=
    fun hrow => (hremembers.known place thread here _ (List.mem_append_right _ hrow)).born
  rcases hholds.of_advance with ⟨d, hacc, -, rfl⟩ | ⟨-, hseat, rfl⟩ | ⟨-, hother⟩
  · obtain ⟨-, hdispatches, -, -⟩ := h.hires here asks hacc
    obtain ⟨expiry, -, rfl⟩ := Option.map_eq_some_iff.1 hlock
    generalize htalk : thread.talk = talk at hdispatches
    cases hdispatches with
    | @reread earlier row _ _ holds named owned carried =>
      refine ⟨row, (htold ?_).append _, named.symm, .inr carried⟩
      rw [htalk, List.flatMap_append]
      exact List.mem_append_left _ holds.told
  · cases hbatch : Event.batch? (.own ⟨call, answer⟩) with
    | none =>
      obtain ⟨row, hborn, hname, htoken⟩ := hknows.born ⟨thread, here, hseat, rfl⟩
        (Grip.lock_of_after hbatch hlock)
      refine ⟨row, hborn.append _, hname, ?_⟩
      rcases Grip.token_of_after_of_lock hlock with hnone | hsame
      · exact .inl hnone
      · rw [hsame]
        exact htoken
    | some ws =>
      rw [Grip.lock_after_batch _ hbatch] at hlock
      obtain ⟨_, row, _, hlocks⟩ := h.locks here asks replies horderly hbatch hlock
      refine ⟨row, (htold hlocks.timed.mem_told).append _, hlocks.named, ?_⟩
      rw [← hlocks.grip_token]
      obtain ⟨rows, hexchange⟩ := Event.batch?_own_eq_some_iff.1 hbatch
      cases hexchange
      exact .inr rfl
  · obtain ⟨row, hborn, hname, htoken⟩ := hknows.born hother hlock
    exact ⟨row, hborn.append _, hname, htoken⟩

/-- The lock in a cycle's hand is the only one in its engine's name on the job. -/
theorem Reachable.stored_advance (h : Reachable s f) (hremembers : f.Remembers s scopesFixed)
    (hknows : f.KnowsLocks s scopesFixed)
    (howners : Function.Injective fun seat => (engine seat).owner)
    (here : f.threads place = some thread) (asks : thread.rest = .ask call next)
    (replies : f.Replies thread.task.seat? call answer s')
    (horderly : thread.task.IsOrderly engine scopesFixed)
    (honce : s.InsertsOnce (f.log ++ (Event.batch? (.own ⟨call, answer⟩)).toList)) {seat : ι}
    {grip : Grip} {grant : Grant}
    (hholds : (f.advance ⟨place, thread.task, ⟨call, answer⟩⟩ (thread.goOn asks answer) s').Holds
      (.cycle seat) seat grip) (hlock : grip.lock = some grant) :
    s'.jobs.LockedOnlyUntil grant.id (engine seat).owner grant.expiry := by
  rcases hholds.of_advance with ⟨_, -, hworker, -⟩ | ⟨rfl, hseat, rfl⟩ | ⟨hne, hother⟩
  · cases hworker
  · cases hbatch : Event.batch? (.own ⟨call, answer⟩) with
    | none =>
      rw [replies.answered.unchanged hbatch]
      exact hknows.stored ⟨thread, here, hseat, rfl⟩ (Grip.lock_of_after hbatch hlock)
    | some ws =>
      rw [Grip.lock_after_batch _ hbatch] at hlock
      obtain ⟨_, _, _, hlocks⟩ := h.locks here asks replies horderly hbatch hlock
      obtain ⟨_, htask⟩ := hlocks.task
      obtain ⟨_, hw⟩ := hlocks.written
      rw [htask] at hseat
      cases hseat
      exact (JobTable.isLockedTo_of_lock hw).lockedOnlyUntil
  · have hbefore := hknows.stored hother hlock
    cases hbatch : Event.batch? (.own ⟨call, answer⟩) with
    | none =>
      rw [replies.answered.unchanged hbatch]
      exact hbefore
    | some ws =>
      rw [hbatch, Option.toList_some] at honce
      rcases h.takesLock_or_isFair here asks horderly hbatch with htakes | hfair
      · obtain ⟨taken, htaken⟩ := htakes.exists_grant
        obtain ⟨_, _, _, hlocks⟩ := h.locks here asks replies horderly hbatch htaken
        obtain ⟨_, htask⟩ := hlocks.task
        obtain ⟨_, hw⟩ := hlocks.written
        obtain rfl := h.place_eq here htask
        -- The cycles of an engine follow each other, so another engine takes the lock.
        refine hbefore.lock (fun howner => hne ?_) hw
        rw [howners howner]
      · obtain ⟨row, hborn, hname, -⟩ := hknows.born hother hlock
        have hnew := hborn.not_inserted honce
        rw [List.flatten_singleton, hname] at hnew
        have hknown := hremembers.known_of_replies here honce
        obtain ⟨rows, hexchange⟩ := Event.batch?_own_eq_some_iff.1 hbatch
        cases hexchange
        exact hbefore.writeAll (Store.writeAll_of_apply replies.answered.apply)
          (fun row hrow => (hknown row hrow).1) (fun row hrow => (hknown row hrow).2) hfair hnew

/-- A row that a cycle has just read is as the store has it. -/
theorem KnowsLocks.reread_advance (hknows : f.KnowsLocks s scopesFixed)
    (here : f.threads place = some thread) (asks : thread.rest = .ask call next)
    (replies : f.Replies thread.task.seat? call answer s') {seat : ι} {found : Thread engine}
    {earlier : List (Exchange (Call ε))} {row : Job} {expiry : Instant}
    (hfound : (f.advance ⟨place, thread.task, ⟨call, answer⟩⟩ (thread.goOn asks answer) s').threads
      (.cycle seat) = some found) (hseat : found.task.seat? = some seat)
    (htalk : found.talk = earlier ++ [⟨.store (.get row.id), .ok (some row)⟩])
    (hlock : found.grip.lock = some ⟨row.id, expiry⟩)
    (hlocked : row.isLockedBy (engine seat).owner = true) : row.lockedUntil = some expiry := by
  rcases threads_advance f _ _ s' hfound with ⟨_, _, -, hworker, -⟩ | ⟨hplace, rfl⟩ | ⟨-, hother⟩
  · cases hworker
  · obtain ⟨-, hexchange⟩ := List.append_inj' htalk rfl
    cases hexchange
    obtain rfl : .cycle seat = place := hplace
    rw [Thread.grip_goOn] at hlock
    exact hknows.stored ⟨thread, here, hseat, rfl⟩ hlock row replies.answered.find? hlocked
  · exact hknows.reread hother hseat htalk hlock hlocked

end Turn

/-- What is known of the locks in hand stays so if nothing is done but that tasks enter. -/
theorem KnowsLocks.enter (h : f.KnowsLocks s scopesFixed) {place : Place ι} {task : Task ι ε}
    (suits : place.Suits task) (vacant : f.isVacant place = true) :
    (f.enter place task).KnowsLocks s scopesFixed := by
  constructor
  · intro p seat grip grant hholds hlock
    rcases hholds.of_enter suits vacant with rfl | hbefore
    · cases hlock
    · exact h.born hbefore hlock
  · intro seat grip grant hholds hlock
    rcases hholds.of_enter suits vacant with rfl | hbefore
    · cases hlock
    · exact h.stored hbefore hlock
  · intro seat thread earlier row expiry hthread hseat htalk hlock hlocked
    rw [threads_enter] at hthread
    split at hthread
    · cases hthread
      cases (List.append_eq_nil_iff.1 htalk.symm).2
    · exact h.reread hthread hseat htalk hlock hlocked

theorem Reachable.knowsLocks (h : Reachable s f)
    (howners : Function.Injective fun seat => (engine seat).owner) (honce : s.InsertsOnce f.log)
    (horderly : f.IsOrderly scopesFixed) : f.KnowsLocks s scopesFixed := by
  refine h.induction_on_turns (I := fun f => f.KnowsLocks s scopesFixed) ?_ ?_ ?_ ?_ honce horderly
  · constructor
    · rintro p seat grip grant ⟨thread, hp, -⟩
      cases hp
    · rintro seat grip grant ⟨thread, hp, -⟩
      cases hp
    · intro seat thread earlier row expiry hthread
      cases hthread
  · exact fun suits vacant hknows => hknows.enter suits vacant
  · intro f place thread β call next answer s' h _ hremembers here asks replies hthread honce hknows
    constructor
    · rw [log_advance]
      exact h.born_advance hremembers hknows here asks replies hthread
    · exact h.stored_advance hremembers hknows howners here asks replies hthread honce
    · exact hknows.reread_advance here asks replies
  · exact fun value hknows => ⟨hknows.born, hknows.stored, hknows.reread⟩

/-! ## Workers -/

/-- A job is dispatched with the lock that its cycle has in hand. -/
theorem Reachable.dispatched_lock (h : Reachable s f) (hknows : f.KnowsLocks s scopesFixed)
    {place : Place ι} {thread : Thread engine} {call : Call ε β}
    {next : β → Routine ε thread.task.Result} {answer : β} (here : f.threads place = some thread)
    (asks : thread.rest = .ask call next) {seat : ι} {d : Dispatched}
    (hacc : Turn.accepted? (⟨place, thread.task, ⟨call, answer⟩⟩ : Turn ι ε) = some (seat, d)) :
    ∃ expiry, d.job.lockedUntil = some expiry ∧ thread.grip.lock = some ⟨d.job.id, expiry⟩ := by
  obtain ⟨-, hdispatches, -, -⟩ := h.hires here asks hacc
  obtain ⟨batch, htask, -⟩ := Turn.accepted?_eq_some_iff.1 hacc
  dsimp only at htask
  obtain rfl := h.place_eq here htask
  have hgrip : thread.grip = Grip.ofCycle thread.talk := by
    rw [Thread.grip, htask]
    rfl
  obtain ⟨expiry, hlock⟩ := hdispatches.lock
  rw [← hgrip] at hlock
  refine ⟨expiry, ?_, hlock⟩
  generalize htalk : thread.talk = talk at hdispatches
  cases hdispatches with
  | reread holds named owned carried =>
    exact hknows.reread here (by rw [htask]; rfl) htalk hlock owned

/-- A new worker has in hand what the cycle had that dispatched its job. -/
theorem Reachable.ofDispatched_eq_grip (h : Reachable s f) (hknows : f.KnowsLocks s scopesFixed)
    {place : Place ι} {thread : Thread engine} {call : Call ε β}
    {next : β → Routine ε thread.task.Result} {answer : β} (here : f.threads place = some thread)
    (asks : thread.rest = .ask call next) {seat : ι} {d : Dispatched}
    (hacc : Turn.accepted? (⟨place, thread.task, ⟨call, answer⟩⟩ : Turn ι ε) = some (seat, d)) :
    Grip.ofDispatched d = thread.grip := by
  obtain ⟨-, -, htoken, -⟩ := h.hires here asks hacc
  obtain ⟨expiry, hexpiry, hlock⟩ := h.dispatched_lock hknows here asks hacc
  rw [Grip.ofDispatched, hexpiry, htoken, Option.map_some, ← hlock]

/-- What is known of a worker and its job: the job was locked up to an instant and dispatched with
the token of its scope, and the lock is in the worker's hand as long as none of its batches was
accepted. -/
structure WorksOn (thread : Thread engine) (d : Dispatched) : Prop where
  locked : ∃ expiry, d.job.lockedUntil = some expiry
  token : d.token = d.job.exclusivityScope
  lock : NoneAccepted thread.talk → thread.grip.lock = (Grip.ofDispatched d).lock

/-- Without a batch the lock in a worker's hand is as it was. -/
theorem Reachable.worker_lock_after (h : Reachable s f) {place : Place ι} {thread : Thread engine}
    {call : Call ε β} {next : β → Routine ε thread.task.Result} (answer : β)
    (here : f.threads place = some thread) (asks : thread.rest = .ask call next)
    (horderly : thread.task.IsOrderly engine scopesFixed) {seat : ι} {d : Dispatched}
    (htask : thread.task = .run seat d) (hnone : Event.batch? (.own ⟨call, answer⟩) = none) :
    (thread.grip.after ⟨call, answer⟩).lock = thread.grip.lock := by
  have hallowed := h.allowed here horderly asks
  rw [htask] at hallowed
  cases call with
  | store call =>
    cases call with
    | apply ws =>
      cases answer with
      | ok rows => cases hnone
      | error fault => rfl
    | _ => rfl
  | takeToken scope => exact hallowed.elim
  | dispatch d => exact hallowed.elim
  | _ => rfl

theorem Reachable.worksOn (h : Reachable s f)
    (howners : Function.Injective fun seat => (engine seat).owner) (honce : s.InsertsOnce f.log)
    (horderly : f.IsOrderly True) : ∀ {p thread seat d}, f.threads p = some thread →
      thread.task = .run seat d → WorksOn thread d := by
  refine h.induction_on_turns (I := fun f => ∀ {p thread seat d}, f.threads p = some thread →
    thread.task = .run seat d → WorksOn thread d) ?_ ?_ ?_ ?_ honce horderly
  · intro p thread seat d hp
    cases hp
  · intro f place task suits vacant hworks p thread seat d hp htask
    rw [threads_enter] at hp
    split at hp
    · cases hp
      obtain rfl : task = .run seat d := htask
      cases rows_eq_nil suits vacant
    · exact hworks hp htask
  · intro f place thread β call next answer s' h hold hremembers here asks replies hthread honce
      hworks p found seat d hp htask
    rcases threads_advance f _ _ s' hp with ⟨k, e, hacc, -, rfl⟩ | ⟨-, rfl⟩ | ⟨-, hp⟩
    · cases htask
      have hknows := h.knowsLocks howners honce.of_append hold
      obtain ⟨-, hdispatches, -, -⟩ := h.hires here asks hacc
      obtain ⟨expiry, hexpiry, -⟩ := h.dispatched_lock hknows here asks hacc
      have hborn : ∀ {row}, row ∈ thread.talk.flatMap Exchange.told →
          s.Bears f.log.flatten True row :=
        fun hrow => (hremembers.known place thread here _ (List.mem_append_right _ hrow)).born
      refine ⟨⟨expiry, hexpiry⟩, ?_, fun _ => rfl⟩
      generalize thread.talk = talk at hdispatches hborn
      cases hdispatches with
      | reread holds named owned carried =>
        rw [carried]
        refine Store.Bears.scope_eq (hborn ?_) (hborn ?_) honce.of_append trivial named.symm
        · rw [List.flatMap_append]
          exact List.mem_append_left _ holds.told
        · rw [List.flatMap_append]
          exact List.mem_append_right _ (List.mem_singleton_self _)
    · have hbefore := hworks here htask
      refine ⟨hbefore.locked, hbefore.token, fun hnone => ?_⟩
      obtain ⟨hnone, hlast⟩ := List.forall_mem_append.1 hnone
      rw [Thread.grip_goOn, h.worker_lock_after answer here asks hthread htask
        (hlast _ (List.mem_singleton_self _))]
      exact hbefore.lock hnone
    · exact hworks hp htask
  · exact fun value hworks => hworks

end Fleet

end DeferredWork
