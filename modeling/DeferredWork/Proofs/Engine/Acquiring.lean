import DeferredWork.Engine.Acquisition
import DeferredWork.Proofs.Engine.Grip
import DeferredWork.Proofs.Engine.Handing

set_option autoImplicit false

/-!
# How an engine acquires

In an acquisition cycle an engine takes a lock only on a row that it has polled, and in possession of
the token that the row needs; it releases a lock only while it has that lock in hand; and it
dispatches only a job that it has just read again, under its own name and with the lock in hand.
When the cycle is over it has no token in hand (`Engine.keeps_acquire`).
-/

namespace DeferredWork

variable {ε : Type → Type} {α : Type}

/-- What an acquisition cycle has in hand. -/
abbrev Grip.ofCycle (talk : List (Exchange (Call ε))) : Grip := Grip.through {} talk

/-- A cycle was told of a row by a poll as of a time that it had read from the clock. -/
def Polled (talk : List (Exchange (Call ε))) (row : Job) : Prop :=
  ∃ now limit rows, ⟨.clock, now⟩ ∈ talk ∧ ⟨.store (.findDue now limit), .ok rows⟩ ∈ talk ∧ row ∈ rows

theorem Polled.mem_told {talk : List (Exchange (Call ε))} {row : Job} (h : Polled talk row) :
    row ∈ talk.flatMap Exchange.told := by
  obtain ⟨now, limit, rows, -, hpoll, hrow⟩ := h
  exact List.mem_flatMap.2 ⟨_, hpoll, hrow⟩

theorem Polled.append {talk : List (Exchange (Call ε))} {row : Job} (h : Polled talk row)
    (more : List (Exchange (Call ε))) : Polled (talk ++ more) row := by
  obtain ⟨now, limit, rows, hclock, hpoll, hrow⟩ := h
  exact ⟨now, limit, rows, List.mem_append_left _ hclock, List.mem_append_left _ hpoll, hrow⟩

/-- A cycle has taken a lock on a row that it was told of, and carries the token of the row. -/
structure Grip.Holds (talk : List (Exchange (Call ε))) (row : Job) (expiry : Instant) : Prop where
  told : row ∈ talk.flatMap Exchange.told
  token : (Grip.ofCycle talk).token = row.exclusivityScope
  lock : (Grip.ofCycle talk).lock = some ⟨row.id, expiry⟩

theorem Grip.Holds.next {talk : List (Exchange (Call ε))} {row : Job} {expiry : Instant}
    {exchange : Exchange (Call ε)} (h : Grip.Holds talk row expiry)
    (hgrip : (Grip.ofCycle talk).after exchange = Grip.ofCycle talk) :
    Grip.Holds (talk ++ [exchange]) row expiry := by
  have hsame : Grip.ofCycle (talk ++ [exchange]) = Grip.ofCycle talk := by
    rw [Grip.ofCycle, Grip.through_append_singleton, hgrip]
  refine ⟨?_, ?_, ?_⟩
  · rw [List.flatMap_append]
    exact List.mem_append_left _ h.told
  · rw [hsame]
    exact h.token
  · rw [hsame]
    exact h.lock

/-- The batches that a cycle hands in: a lock on a row that it has polled before it read the clock,
or the release of the job whose lock it has in hand. -/
inductive Engine.Acquires (owner : Owner) : List (Exchange (Call ε)) → List Write → Prop
  | lock {earlier : List (Exchange (Call ε))} {row : Job} {expiry now : Instant}
      (polled : Polled earlier row) (token : (Grip.ofCycle earlier).token = row.exclusivityScope) :
      Acquires owner (earlier ++ [⟨.clock, now⟩]) [.lock row.id row.revision owner expiry now]
  | release {talk : List (Exchange (Call ε))} {row locked : Job} {expiry : Instant}
      (holds : Grip.Holds talk row expiry) (told : locked ∈ talk.flatMap Exchange.told)
      (named : locked.id = row.id) (owned : locked.isLockedBy owner = true) :
      Acquires owner talk [.update locked.released (.exactly locked.revision)]

/-- A cycle that hands in no lock has one in hand. -/
theorem Engine.Acquires.exists_holds {owner : Owner} {talk : List (Exchange (Call ε))}
    {ws : List Write} {terms : Terms} {charge : Option Charge} {known : List Job}
    (h : Engine.Acquires owner talk ws) (hfair : ∀ w ∈ ws, w.IsFair terms charge known) :
    ∃ row expiry, Grip.Holds talk row expiry := by
  cases h with
  | lock polled token => exact (hfair _ (List.mem_singleton_self _)).elim
  | release holds told named owned => exact ⟨_, _, holds⟩

/-- A cycle dispatches a job that it has just read again, in the name of the engine and with lock and
token in hand. -/
inductive Engine.Dispatches (owner : Owner) : List (Exchange (Call ε)) → Dispatched → Prop
  | reread {earlier : List (Exchange (Call ε))} {row : Job} {expiry : Instant} {d : Dispatched}
      (holds : Grip.Holds earlier row expiry) (named : d.job.id = row.id)
      (owned : d.job.isLockedBy owner = true) (carried : d.token = row.exclusivityScope) :
      Dispatches owner (earlier ++ [⟨.store (.get d.job.id), .ok (some d.job)⟩]) d

theorem Engine.Dispatches.mem_told {owner : Owner} {talk : List (Exchange (Call ε))}
    {d : Dispatched} (h : Engine.Dispatches owner talk d) : d.job ∈ talk.flatMap Exchange.told := by
  cases h with
  | reread holds named owned carried =>
    rw [List.flatMap_append]
    exact List.mem_append_right _ (List.mem_singleton_self _)

/-- A cycle that dispatches a job has the lock of that job in hand. -/
theorem Engine.Dispatches.lock {owner : Owner} {talk : List (Exchange (Call ε))} {d : Dispatched}
    (h : Engine.Dispatches owner talk d) :
    ∃ expiry, (Grip.ofCycle talk).lock = some ⟨d.job.id, expiry⟩ := by
  cases h with
  | @reread earlier row expiry _ holds named owned carried =>
    refine ⟨expiry, ?_⟩
    rw [Grip.ofCycle, Grip.through_append_singleton, named]
    exact holds.lock

/-- How an engine conducts itself in an acquisition cycle. -/
def Engine.acquiring (owner : Owner) : Conduct ε where
  apply := Engine.Acquires owner
  dispatch := Engine.Dispatches owner
  takeToken talk _ := (Grip.ofCycle talk).token = none
  giveToken talk scope := (Grip.ofCycle talk).token = some scope

namespace Engine

/-! ## Calls of the store -/

theorem keeps_callStore_bind {β : Type} {conduct : Conduct ε}
    {post : List (Exchange (Call ε)) → α → Prop} {call : StoreCall β}
    {f : Except StoreError β → Routine ε α} {talk : List (Exchange (Call ε))}
    (hallowed : conduct.rules.allows talk (.store call))
    (hok : ∀ b, Exchange.IsPlausible (ε := ε) ⟨.store call, .ok b⟩ →
      (f (.ok b)).Keeps conduct.rules post (talk ++ [⟨.store call, .ok b⟩]))
    (herror : ∀ e, (f (.error e)).Keeps conduct.rules post
      (talk ++ [⟨.store call, .error (.refused e)⟩])) :
    ((Routine.callStore call).bind f).Keeps conduct.rules post talk := by
  refine ⟨hallowed, fun answer hanswer => ?_⟩
  match answer, hanswer with
  | .ok b, hanswer => exact hok b hanswer
  | .error (.refused e), _ => exact herror e
  | .error (.crashed reason), hanswer => cases call <;> exact hanswer.elim

end Engine

/-- To lock a job is to ask for the time, and to stage the lock if the calendar has room for it. -/
theorem Command.run_lockJob (job : Job) (owner : Owner) (duration : Duration) :
    (Command.lockJob (ε := ε) job owner duration).run = .ask .now fun now =>
      if Instant.maxStep < duration.nanos then
        .done (.error (.failed { message := s!"invalid lock duration: {Duration.tooLong}" }))
      else
        (now.after? duration).elim (.abort Instant.overflow) fun expiry =>
          .ask (.stage (.lock job owner expiry)) fun _ => .done (.ok ()) := by
  refine congrArg (Interaction.ask Request.now) (funext fun now => ?_)
  simp only [Interaction.done_bind, Function.comp_apply, ExceptT.bindCont]
  split
  · rfl
  · cases now.after? duration <;> rfl

/-- A transaction that locks a job fails, or commits just the lock, which lasts for the duration from
the time that it read. -/
theorem Transaction.runFrom_lockJob (limit : Duration) (job : Job) (owner : Owner)
    (duration : Duration) (now : Instant) :
    (∃ e, runFrom (ε := ε) limit (Command.lockJob job owner duration).run { now := now } =
      .done (.error e)) ∨
    ∃ expiry, now.after? duration = some expiry ∧
      runFrom (ε := ε) limit (Command.lockJob job owner duration).run { now := now } =
        commit (Context.stage { now := now } (.lock job owner expiry)) () := by
  rw [Command.run_lockJob, runFrom]
  dsimp only
  split
  · exact .inl ⟨_, rfl⟩
  · cases hexpiry : now.after? duration with
    | none => exact .inl ⟨_, rfl⟩
    | some expiry =>
      rw [Option.elim_some, runFrom, runFrom]
      split
      · exact .inl ⟨_, rfl⟩
      · exact .inr ⟨expiry, rfl, rfl⟩

namespace Engine

/-! ## Trying polled jobs -/

theorem token_next {talk : List (Exchange (Call ε))} {token : Option ScopeId}
    (exchange : Exchange (Call ε)) (h : (Grip.ofCycle talk).token = token)
    (hfree : ((Grip.ofCycle talk).after exchange).token = (Grip.ofCycle talk).token) :
    (Grip.ofCycle (talk ++ [exchange])).token = token := by
  rw [Grip.ofCycle, Grip.through_append_singleton, hfree]
  exact h

/-- A cycle has polled the jobs that it tries, and carries a token or none. -/
structure Tries (talk : List (Exchange (Call ε))) (jobs : List Job) (token : Option ScopeId) :
    Prop where
  polled : ∀ job ∈ jobs, Polled talk job
  token : (Grip.ofCycle talk).token = token

theorem Tries.next {talk : List (Exchange (Call ε))} {jobs : List Job} {token : Option ScopeId}
    {exchange : Exchange (Call ε)} (h : Tries talk jobs token)
    (hfree : ((Grip.ofCycle talk).after exchange).token = (Grip.ofCycle talk).token) :
    Tries (talk ++ [exchange]) jobs token :=
  ⟨fun job hmem => (h.polled job hmem).append _, token_next exchange h.token hfree⟩

/-- The transaction that locks a job leaves the lock in hand if it goes well. -/
theorem keeps_lockJob (engine : Engine ε) {job : Job} {jobs : List Job}
    {talk : List (Exchange (Call ε))} (h : Tries talk (job :: jobs) job.exclusivityScope) :
    (engine.transact (.lockJob job engine.owner engine.lockDuration)).Keeps
      (acquiring engine.owner).rules
      (fun talk outcome => Tries talk (job :: jobs) job.exclusivityScope ∧
        (outcome = .ok () → ∃ expiry, (Grip.ofCycle talk).lock = some ⟨job.id, expiry⟩)) talk := by
  refine ⟨trivial, fun now _ => ?_⟩
  have hclock : Tries (talk ++ [⟨.clock, now⟩]) (job :: jobs) job.exclusivityScope := h.next rfl
  dsimp only
  rcases Transaction.runFrom_lockJob engine.limit job engine.owner engine.lockDuration now with
    ⟨e, he⟩ | ⟨expiry, -, he⟩
  · rw [he]
    exact ⟨hclock, fun hok => nomatch hok⟩
  · rw [he]
    refine keeps_callStore_bind (.lock (h.polled job List.mem_cons_self) h.token) ?_ ?_
    · intro rows _
      refine ⟨hclock.next rfl, fun _ => ⟨expiry, ?_⟩⟩
      rw [Grip.ofCycle, Grip.through_append_singleton]
      rfl
    · intro e
      exact ⟨hclock.next rfl, fun hok => nomatch hok⟩

/-- What a cycle has found out when it has locked a job and read it again. -/
def Rereads (owner : Owner) (talk : List (Exchange (Call ε))) (job locked : Job) : Prop :=
  ∃ earlier expiry, talk = earlier ++ [⟨.store (.get locked.id), .ok (some locked)⟩] ∧
    Grip.Holds earlier job expiry ∧ locked.id = job.id ∧ locked.isLockedBy owner = true

theorem keeps_lock (engine : Engine ε) {job : Job} {jobs : List Job}
    {talk : List (Exchange (Call ε))} (h : Tries talk (job :: jobs) job.exclusivityScope) :
    (engine.lock job).Keeps (acquiring engine.owner).rules
      (fun talk outcome => Tries talk (job :: jobs) job.exclusivityScope ∧
        ∀ locked, outcome = .ok (some locked) → Rereads engine.owner talk job locked) talk := by
  refine Interaction.keeps_bind.2 ((engine.keeps_lockJob h).mono ?_)
  rintro talk outcome ⟨htries, hlock⟩
  cases outcome with
  | error e =>
    refine ⟨htries, fun locked hlocked => ?_⟩
    split at hlocked <;> cases hlocked
  | ok value =>
    obtain ⟨expiry, hgrip⟩ := hlock rfl
    refine keeps_callStore_bind trivial ?_ ?_
    · intro found hfound
      refine ⟨htries.next rfl, fun locked hlocked => ?_⟩
      obtain ⟨rfl, howned⟩ := Option.filter_eq_some_iff.1 (Except.ok.inj hlocked)
      have hname : locked.id = job.id := hfound
      refine ⟨talk, expiry, ?_, ⟨(htries.polled job List.mem_cons_self).mem_told, htries.token, hgrip⟩,
        hname, howned⟩
      rw [hname]
    · intro e
      exact ⟨htries.next rfl, fun locked hlocked => nomatch hlocked⟩

/-- A cycle releases the lock that it has in hand. -/
theorem keeps_unlock (engine : Engine ε) {id : JobId} {job : Job} {expiry : Instant}
    {jobs : List Job} {token : Option ScopeId} {talk : List (Exchange (Call ε))}
    (h : Tries talk jobs token) (hholds : Grip.Holds talk job expiry) (hname : id = job.id) :
    (engine.unlock id).Keeps (acquiring engine.owner).rules
      (fun talk _ => Tries talk jobs token) talk := by
  subst hname
  have hframe : Transaction.Frame (ε := ε)
      (fun talk => Tries talk jobs token ∧ Grip.Holds talk job expiry)
      (fun talk => Tries talk jobs token) := by
    refine ⟨?_, ?_, And.left, ?_, ?_⟩
    · rintro β talk call answer hinner ⟨htries, hholds⟩
      have hgrip := Grip.after_of_isInner hinner (Grip.ofCycle talk) answer
      exact ⟨htries.next (congrArg Grip.token hgrip), hholds.next hgrip⟩
    · rintro talk ws e ⟨htries, hholds⟩
      exact ⟨htries.next rfl, hholds.next rfl⟩
    · rintro talk ws rows ⟨htries, -⟩
      exact htries.next rfl
    · intro talk incident htries
      exact htries.next rfl
  have hrun : (engine.transact (.releaseLock job.id engine.owner)).Keeps
      (acquiring engine.owner).rules
      (Transaction.Frame.close (fun talk => Tries talk jobs token ∧ Grip.Holds talk job expiry)
        (fun talk => Tries talk jobs token)) talk := by
    refine hframe.keeps_run_handsIn engine.limit (fun now calls ws hbefore hhands => ?_) ⟨h, hholds⟩
    obtain ⟨row, hrow, hname, howned, rfl⟩ := Command.handsIn_releaseLock hhands
    refine Acquires.release hbefore.2 ?_ hname howned
    rw [List.flatMap_append, List.flatMap_cons]
    exact List.mem_append_right _ (List.mem_append_right _ hrow)
  refine Interaction.keeps_bind.2 (hrun.mono ?_)
  intro talk outcome hclose
  cases outcome with
  | error e => exact hclose.1
  | ok released => exact hclose

theorem keeps_giveBack (owner : Owner) {jobs : List Job} {token : Option ScopeId}
    {talk : List (Exchange (Call ε))} (h : Tries talk jobs token) :
    (Routine.giveBack token).Keeps (acquiring owner).rules
      (fun talk _ => Tries talk jobs none) talk := by
  cases token with
  | none => exact h
  | some scope =>
    refine ⟨h.token, fun _ _ => ⟨fun job hmem => (h.polled job hmem).append _, ?_⟩⟩
    rw [Grip.ofCycle, Grip.through_append_singleton]
    rfl

theorem keeps_offer (engine : Engine ε) {job : Job} {jobs : List Job}
    {talk : List (Exchange (Call ε))} (h : Tries talk (job :: jobs) job.exclusivityScope) :
    (engine.offer job job.exclusivityScope).Keeps (acquiring engine.owner).rules
      (fun talk _ => Tries talk (job :: jobs) none) talk := by
  have hgiven : ∀ {talk : List (Exchange (Call ε))} {α : Type} (a : α),
      Tries talk (job :: jobs) job.exclusivityScope →
      ((Routine.giveBack job.exclusivityScope).bind fun _ => .done a).Keeps
        (acquiring engine.owner).rules (fun talk _ => Tries talk (job :: jobs) none)
        talk :=
    fun a htries => Interaction.keeps_bind.2 (keeps_giveBack engine.owner htries)
  refine Interaction.Keeps.onAbort (Interaction.keeps_bind.2 ((engine.keeps_lock h).mono ?_)) _
  rintro talk outcome ⟨htries, hreread⟩
  match outcome, hreread with
  | .error e, _ => exact hgiven _ htries
  | .ok none, _ => exact hgiven _ htries
  | .ok (some locked), hreread =>
    obtain ⟨earlier, expiry, rfl, hholds, hname, howned⟩ := hreread locked rfl
    have hallowed := Dispatches.reread (d := ⟨locked, job.exclusivityScope⟩) hholds hname howned rfl
    refine Interaction.keeps_query_bind.2 ⟨hallowed, fun accepted _ => ?_⟩
    cases accepted with
    | true =>
      -- Lock and token have gone with the job.
      have hdispatched : Tries (earlier ++ [⟨.store (.get locked.id), .ok (some locked)⟩] ++
          [⟨.dispatch ⟨locked, job.exclusivityScope⟩, true⟩]) (job :: jobs) none := by
        refine ⟨fun row hrow => (htries.polled row hrow).append _, ?_⟩
        rw [Grip.ofCycle, Grip.through_append_singleton]
        rfl
      exact ⟨trivial, fun _ _ => ⟨trivial, fun _ _ => (hdispatched.next rfl).next rfl⟩⟩
    | false =>
      refine Interaction.keeps_query_bind.2 ⟨trivial, fun _ _ => ?_⟩
      refine Interaction.keeps_bind.2 ((engine.keeps_unlock ((htries.next rfl).next rfl)
        (((hholds.next rfl).next rfl).next rfl) hname).mono ?_)
      exact fun talk released htries => hgiven _ htries

theorem keeps_takeTokenFor (owner : Owner) (tried : List ScopeId) (job : Job) {jobs : List Job}
    {talk : List (Exchange (Call ε))} (h : Tries talk jobs none) :
    (takeTokenFor tried job).Keeps (acquiring owner).rules
      (fun talk taken => Tries talk jobs taken.join ∧ ∀ token ∈ taken, token = job.exclusivityScope)
      talk := by
  unfold takeTokenFor
  cases hscope : job.exclusivityScope with
  | none => exact ⟨h, fun token htoken => (Option.some.inj htoken).symm⟩
  | some scope =>
    dsimp only
    split
    · exact ⟨h, fun token htoken => nomatch htoken⟩
    · refine Interaction.keeps_query_bind.2 ⟨h.token, fun taken _ => ?_⟩
      cases taken with
      | true =>
        refine ⟨⟨fun row hrow => (h.polled row hrow).append _, ?_⟩,
          fun token htoken => (Option.some.inj htoken).symm⟩
        rw [Grip.ofCycle, Grip.through_append_singleton]
        rfl
      | false => exact ⟨h.next rfl, fun token htoken => nomatch htoken⟩

/-! ## Whole cycles -/

theorem keeps_offerAll (engine : Engine ε) (jobs : List Job) (tried : List ScopeId)
    (report : CycleReport) {talk : List (Exchange (Call ε))} (h : Tries talk jobs none) :
    (engine.offerAll jobs tried report).Keeps (acquiring engine.owner).rules
      (fun talk _ => (Grip.ofCycle talk).token = none) talk := by
  induction jobs generalizing tried report talk with
  | nil => exact h.token
  | cons job jobs ih =>
    have hrest : ∀ {talk : List (Exchange (Call ε))}, Tries talk (job :: jobs) none →
        Tries talk jobs none :=
      fun htries => ⟨fun row hrow => htries.polled row (List.mem_cons_of_mem _ hrow), htries.token⟩
    refine Interaction.keeps_bind.2 ((keeps_takeTokenFor engine.owner tried job h).mono ?_)
    rintro talk taken ⟨htries, htoken⟩
    match taken, htries, htoken with
    | none, htries, _ => exact ih _ _ (hrest htries)
    | some token, htries, htoken =>
      obtain rfl := htoken token rfl
      refine Interaction.keeps_bind.2 ((engine.keeps_offer htries).mono ?_)
      intro talk outcome htries
      match outcome with
      | .error e => exact htries.token
      | .ok .lost => exact ih _ _ (hrest htries)
      | .ok .dispatched => exact ih _ _ (hrest htries)
      | .ok .rejected => exact htries.token

theorem keeps_runCycle (engine : Engine ε) (batch : Nat) {talk : List (Exchange (Call ε))}
    (h : (Grip.ofCycle talk).token = none) :
    (engine.runCycle batch).Keeps (acquiring engine.owner).rules
      (fun talk _ => (Grip.ofCycle talk).token = none) talk := by
  refine Interaction.keeps_query_bind.2 ⟨trivial, fun _ _ => ?_⟩
  refine Interaction.keeps_query_bind.2 ⟨trivial, fun now _ => ?_⟩
  refine keeps_callStore_bind trivial (fun jobs _ => ?_) fun e => ?_
  · cases jobs with
    | nil => exact token_next _ (token_next _ (token_next _ h rfl) rfl) rfl
    | cons job jobs =>
      refine Interaction.keeps_query_bind.2 ⟨trivial, fun _ _ => ?_⟩
      refine engine.keeps_offerAll _ _ _ (Tries.next ⟨fun row hrow => ?_, ?_⟩ rfl)
      · refine ⟨now, max batch 1, job :: jobs, ?_, List.mem_concat_self, hrow⟩
        exact List.mem_append_left _ List.mem_concat_self
      · exact token_next _ (token_next _ (token_next _ h rfl) rfl) rfl
  · exact token_next _ (token_next _ (token_next _ h rfl) rfl) rfl

/-- What an engine locks, releases and dispatches in an acquisition cycle, it does by the rules, and
in the end it has no token in hand. -/
theorem keeps_acquire (engine : Engine ε) (batch : Nat) :
    (engine.acquire batch).Keeps (acquiring engine.owner).rules
      (fun talk _ => (Grip.ofCycle talk).token = none) [] := by
  refine Interaction.keeps_query_bind.2 ⟨trivial, fun _ _ => ?_⟩
  refine Interaction.keeps_bind.2 ((engine.keeps_runCycle batch (token_next _ rfl rfl)).mono ?_)
  intro talk result hnone
  refine Interaction.keeps_query_bind.2 ⟨trivial, fun _ _ => ?_⟩
  have hidle := token_next ⟨.enter .idle, ()⟩ hnone rfl
  cases result with
  | error e => exact Interaction.keeps_query_bind.2 ⟨trivial, fun _ _ => token_next _ hidle rfl⟩
  | ok report => exact hidle

end Engine

end DeferredWork
