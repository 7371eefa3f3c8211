import GompUlt.Team.TeamState

/-! # The release of a lock that several teams use

The queue of a lock belongs to no team: a task of one team waits in it until a thread of any team releases the
lock.  What the release does to the other queues of the waiter it does for the team of the releasing thread.
-/
namespace GompUlt.TeamRelease
open GompUlt.Team

/-- The queues of all teams; tasks, taskgroups, threads and locks are named across them. -/
inductive QRef
  | children (type : TaskType) (task : ℕ)
  | taskgroup (type : TaskType) (group : ℕ)
  | team (team : ℕ) (type : TaskType)
  | suspended (type : TaskType) (thread : ℕ)
  | locked (lock : ℕ)
  deriving DecidableEq, Repr

/-- The queues without a running zone. -/
def QRef.plain : QRef → Bool
  | children _ _ | taskgroup _ _ => false
  | team _ _ | suspended _ _ | locked _ => true

/-- The teams.  `team` and `groupTeam` tell the team that a task and a taskgroup were created in, `pending` the flag
of a team's barrier. -/
structure Teams where
  task : ℕ → Task
  team : ℕ → ℕ
  groupTeam : ℕ → ℕ
  queue : QRef → TaskQueue ℕ
  queued : ℕ → ℤ
  pending : ℕ → Bool

namespace Teams

def modify (s : Teams) (t : ℕ) (f : Task → Task) : Teams := { s with task := Function.update s.task t (f (s.task t)) }

def call (s : Teams) (q : QRef) (c : Call) (t : ℕ) : Teams :=
  { s with queue := Function.update s.queue q ((s.queue q).exec q.plain c t) }

/-- A call on a queue behind a pointer that may be NULL. -/
def callOpt (s : Teams) (q : Option QRef) (c : Call) (t : ℕ) : Teams :=
  match q with
  | none => s
  | some q => s.call q c t

def callFamily (s : Teams) (type : TaskType) (parent taskgroup : Option ℕ) (c : Call) (t : ℕ) : Teams :=
  (s.callOpt (parent.map (.children type)) c t).callOpt (taskgroup.map (.taskgroup type)) c t

/-- `++team->task_queued_count` with the flag of the barrier, or `--team->task_queued_count`. -/
def addQueued (s : Teams) (team : ℕ) (d : ℤ) : Teams :=
  { s with
    queued := Function.update s.queued team (s.queued team + d)
    pending := Function.update s.pending team (if 0 < d then true else s.pending team && s.queued team + d ≠ 0) }

def status (s : Teams) (q : QRef) (t : ℕ) : Option Zone := (s.queue q).status t

def getNumChildren (s : Teams) (t : ℕ) : ℤ :=
  (s.queue (.children .tied t)).numPriorityNode + (s.queue (.children .untied t)).numPriorityNode

def getNumWaitingChildren (s : Teams) (t : ℕ) : ℤ :=
  (s.queue (.children .tied t)).numWaitingPriorityNode + (s.queue (.children .untied t)).numWaitingPriorityNode

def isBlockedTied (s : Teams) (t : ℕ) : Bool := s.getNumChildren t ≠ 0

def isBlockedUntied (s : Teams) (t : ℕ) : Bool :=
  s.getNumChildren t ≠ 0 && ((s.task t).untiedBlockVar || s.getNumWaitingChildren t = 0)

/-- The TIED branch of gomp_task_handle_blocking. -/
def setBlockedTied (s : Teams) (task : ℕ) (b : Bool) : Teams :=
  let thread := (s.task task).suspendingThread
  (s.modify task fun x => { x with isBlocked := b }).callOpt (thread.map (.suspended .tied))
    (if b then .block (s.task task).kind else .unblock) task

/-- The UNTIED branch for the team that is passed in, up to the look at the parent; gomp_task_handle_locking has the
same steps. -/
def setBlockedUntied (s : Teams) (team task : ℕ) (b : Bool) : Teams :=
  let x := s.task task
  let c := if b then Call.block x.kind else .unblock
  let s := if x.undeferredAncestor = none then s.callFamily .untied x.parent x.taskgroup c task else s
  let s := s.call (.team team .untied) c task
  let s := s.modify task fun x => { x with isBlocked := b }
  let s := s.callOpt (x.suspendingThread.map (.suspended .untied)) c task
  s.addQueued team (if b then -1 else 1)

/-- The parent of the task, when it is in GOMP_taskwait. -/
def waitingParent (s : Teams) (task : ℕ) : Option ℕ := (s.task task).parent.filter fun p => (s.task p).inTaskwait

/-- gomp_task_handle_blocking; a parent has a smaller number than its children, so that the number of the task is
fuel enough. -/
def handleBlocking (team : ℕ) : ℕ → Teams → ℕ → Teams
  | 0, s, _ => s
  | fuel + 1, s, task =>
    let x := s.task task
    match x.type with
    | .tied =>
      if x.kind ≠ .tiedSuspended || x.isBlocked = s.isBlockedTied task then s
      else s.setBlockedTied task (!x.isBlocked)
    | .untied =>
      if x.kind ≠ .waiting || x.isBlocked = s.isBlockedUntied task then s
      else
        let s := s.setBlockedUntied team task (!x.isBlocked)
        match s.waitingParent task with
        | none => s
        | some p => handleBlocking team fuel s p

def gompTaskHandleBlocking (s : Teams) (team task : ℕ) : Teams := handleBlocking team (task + 1) s task

/-- The part of gomp_task_handle_locking that is about the chosen task. -/
def releaseTask (s : Teams) (team lock task : ℕ) : Teams :=
  let s := s.call (.locked lock) (.remove false) task
  match (s.task task).type with
  | .tied => s.setBlockedTied task false
  | .untied => s.setBlockedUntied team task false

/-- gomp_task_handle_locking for the task it has chosen, run by a thread of the given team. -/
def gompTaskHandleLocking (s : Teams) (team lock task : ℕ) : Teams :=
  let s := s.releaseTask team lock task
  match (s.task task).type with
  | .tied => s
  | .untied =>
    match s.waitingParent task with
    | none => s
    | some p => s.gompTaskHandleBlocking team p

/-- The locked branch of gomp_suspend_untied_task_for_successor, for the team of the suspending thread. -/
def suspendLocked (s : Teams) (thr team lock task : ℕ) : Teams :=
  let x := s.task task
  let s := s.call (.locked lock) (.insert false) task
  let s := if x.kind ≠ .undeferred then s.callFamily .untied x.parent x.taskgroup (.block x.kind) task else s
  let s := s.modify task fun x => { x with isBlocked := true }
  let s := s.call (.suspended .untied thr) (.insert true) task
  let s := s.modify task fun x => { x with suspendingThread := some thr, kind := .waiting }
  s.call (.team team .untied) (.insert true) task

/-- The queues that an UNTIED waiter is blocked in. -/
def ownQueues (s : Teams) (t : ℕ) : List QRef :=
  let x := s.task t
  (if x.undeferredAncestor = none then
      (x.parent.map (.children .untied)).toList ++ (x.taskgroup.map (.taskgroup .untied)).toList
    else []) ++
    .team (s.team t) .untied :: (x.suspendingThread.map (.suspended .untied)).toList

/-- The parent and the taskgroup of an UNTIED task are of its team, and the parent was created before it.  An implicit
task of an inner team has a parent in the outer one. -/
structure Nested (s : Teams) : Prop where
  parent : ∀ t p, (s.task t).type = .untied → (s.task t).parent = some p → s.team p = s.team t ∧ p < t
  taskgroup : ∀ t g, (s.task t).type = .untied → (s.task t).taskgroup = some g → s.groupTeam g = s.team t

/-- An UNTIED task that the release of a lock can choose. -/
structure Waits (s : Teams) (lock t : ℕ) : Prop where
  chosen : s.status (.locked lock) t = some .ready
  untied : (s.task t).type = .untied
  blocked : ∀ q ∈ s.ownQueues t, s.status q t = some .blocked

/-- Nothing of the other teams is modified: their queues, counts and the flags of their barriers, the queues of their
tasks and taskgroups, and those of threads that have suspended no task of the given teams. -/
structure Keeps (mine : ℕ → Prop) (s s' : Teams) : Prop where
  teams : ∀ u, ¬ mine u → (∀ type, s'.queue (.team u type) = s.queue (.team u type)) ∧ s'.queued u = s.queued u ∧
    s'.pending u = s.pending u
  children : ∀ type t, ¬ mine (s.team t) → s'.queue (.children type t) = s.queue (.children type t)
  taskgroup : ∀ type g, ¬ mine (s.groupTeam g) → s'.queue (.taskgroup type g) = s.queue (.taskgroup type g)
  suspended : ∀ type h, (∀ t, mine (s.team t) → (s.task t).suspendingThread ≠ some h) →
    s'.queue (.suspended type h) = s.queue (.suspended type h)

/-- What the release of a lock is to do for the waiter it has chosen. -/
structure Released (s : Teams) (team lock t : ℕ) : Prop where
  left : (s.gompTaskHandleLocking team lock t).status (.locked lock) t = none
  unblocked : ∀ q ∈ s.ownQueues t, (s.gompTaskHandleLocking team lock t).status q t = some .ready
  counted : (s.releaseTask team lock t).queued (s.team t) = s.queued (s.team t) + 1
  kept : Keeps (· = s.team t) s (s.gompTaskHandleLocking team lock t)

section Frames
variable {s s' s'' : Teams} {mine : ℕ → Prop} {team t u lock : ℕ} {q q' : QRef} {c : Call}

/-- Where a task stands and what it belongs to stay. -/
structure SameTasks (s s' : Teams) : Prop where
  team : s'.team = s.team
  groupTeam : s'.groupTeam = s.groupTeam
  task : ∀ t, (s'.task t).parent = (s.task t).parent ∧ (s'.task t).taskgroup = (s.task t).taskgroup ∧
    (s'.task t).suspendingThread = (s.task t).suspendingThread ∧ (s'.task t).type = (s.task t).type

theorem SameTasks.refl (s : Teams) : SameTasks s s := ⟨rfl,rfl,fun _ => ⟨rfl,rfl,rfl,rfl⟩⟩

theorem SameTasks.trans (h : SameTasks s s') (h' : SameTasks s' s'') : SameTasks s s'' := by
  refine ⟨h'.team.trans h.team,h'.groupTeam.trans h.groupTeam,fun t => ?_⟩
  obtain ⟨h1,h2,h3,h4⟩ := h.task t
  obtain ⟨h1',h2',h3',h4'⟩ := h'.task t
  exact ⟨h1'.trans h1,h2'.trans h2,h3'.trans h3,h4'.trans h4⟩

theorem SameTasks.nested (h : SameTasks s s') (hn : Nested s) : Nested s' := by
  refine ⟨fun t p hu hp => ?_,fun t g hu hg => ?_⟩
  · rw [(h.task t).2.2.2] at hu
    rw [(h.task t).1] at hp
    rw [h.team]
    exact hn.parent t p hu hp
  · rw [(h.task t).2.2.2] at hu
    rw [(h.task t).2.1] at hg
    rw [h.team,h.groupTeam]
    exact hn.taskgroup t g hu hg

/-- A step that keeps what the tasks belong to, the other teams, and where certain tasks stand. -/
structure Step (mine away : ℕ → Prop) (s s' : Teams) : Prop where
  same : SameTasks s s'
  keeps : Keeps mine s s'
  status : ∀ u, away u → ∀ q, s'.status q u = s.status q u

variable {away away' : ℕ → Prop}

theorem Step.refl (mine away : ℕ → Prop) (s : Teams) : Step mine away s s :=
  ⟨.refl s,⟨fun _ _ => ⟨fun _ => rfl,rfl,rfl⟩,fun _ _ _ => rfl,fun _ _ _ => rfl,fun _ _ _ => rfl⟩,fun _ _ _ => rfl⟩

theorem Step.trans (h : Step mine away s s') (h' : Step mine away s' s'') : Step mine away s s'' := by
  refine ⟨h.same.trans h'.same,⟨fun u hu => ?_,fun type t ht => ?_,fun type g hg => ?_,fun type n hn => ?_⟩,
    fun u hu q => (h'.status u hu q).trans (h.status u hu q)⟩
  · obtain ⟨h1,h2,h3⟩ := h.keeps.teams u hu
    obtain ⟨h1',h2',h3'⟩ := h'.keeps.teams u hu
    exact ⟨fun type => (h1' type).trans (h1 type),h2'.trans h2,h3'.trans h3⟩
  · exact (h'.keeps.children type t (by rwa [h.same.team])).trans (h.keeps.children type t ht)
  · exact (h'.keeps.taskgroup type g (by rwa [h.same.groupTeam])).trans (h.keeps.taskgroup type g hg)
  · refine (h'.keeps.suspended type n fun t ht => ?_).trans (h.keeps.suspended type n hn)
    rw [h.same.team] at ht
    rw [(h.same.task t).2.2.1]
    exact hn t ht

theorem Step.mono (h : Step mine away s s') (hle : ∀ u, away' u → away u) : Step mine away' s s' :=
  ⟨h.same,h.keeps,fun u hu => h.status u (hle u hu)⟩

/-- The queue is one of the given teams. -/
def Belongs (s : Teams) (mine : ℕ → Prop) : QRef → Prop
  | .children _ t => mine (s.team t)
  | .taskgroup _ g => mine (s.groupTeam g)
  | .team u _ => mine u
  | .suspended _ h => ∃ t, mine (s.team t) ∧ (s.task t).suspendingThread = some h
  | .locked _ => True

theorem call_queue_of_ne (h : q' ≠ q) : (s.call q c t).queue q' = s.queue q' := Function.update_of_ne h ..

theorem call_status (s : Teams) (q q' : QRef) (c : Call) (t u : ℕ) : (s.call q c t).status q' u =
    if q' = q ∧ u = t then c.result q.plain (s.status q t) else s.status q' u := by
  unfold status
  by_cases hq : q' = q
  · subst hq
    have hself : (s.call q' c t).queue q' = (s.queue q').exec q'.plain c t := Function.update_self ..
    rw [hself,TaskQueue.exec_status]
    by_cases hu : u = t <;> simp [hu]
  · rw [call_queue_of_ne hq,if_neg fun h => hq h.1]

/-- A call on a queue of the team. -/
theorem step_call (hq : Belongs s mine q) (c : Call) (t : ℕ) : Step mine (· ≠ t) s (s.call q c t) := by
  refine ⟨⟨rfl,rfl,fun _ => ⟨rfl,rfl,rfl,rfl⟩⟩,⟨fun u hu => ⟨fun type => ?_,rfl,rfl⟩,fun type x hx => ?_,
    fun type g hg => ?_,fun type h hh => ?_⟩,fun u hu q' => ?_⟩
  · exact call_queue_of_ne fun he => hu (by rw [← he] at hq; exact hq)
  · exact call_queue_of_ne fun he => hx (by rw [← he] at hq; exact hq)
  · exact call_queue_of_ne fun he => hg (by rw [← he] at hq; exact hq)
  · refine call_queue_of_ne fun he => ?_
    rw [← he] at hq
    obtain ⟨x,hx,hsusp⟩ := hq
    exact hh x hx hsusp
  · rw [call_status,if_neg fun h => hu h.2]

theorem step_callOpt {o : Option QRef} (hq : ∀ q ∈ o, Belongs s mine q) (c : Call) (t : ℕ) :
    Step mine (· ≠ t) s (s.callOpt o c t) := by
  rcases o with _ | q
  · exact .refl mine _ s
  · exact step_call (hq q rfl) c t

theorem step_setFlag (s : Teams) (mine away : ℕ → Prop) (t : ℕ) (b : Bool) :
    Step mine away s (s.modify t fun x => { x with isBlocked := b }) := by
  refine ⟨⟨rfl,rfl,fun u => ?_⟩,⟨fun _ _ => ⟨fun _ => rfl,rfl,rfl⟩,fun _ _ _ => rfl,fun _ _ _ => rfl,
    fun _ _ _ => rfl⟩,fun _ _ _ => rfl⟩
  by_cases hu : u = t
  · subst hu
    simp [modify]
  · simp [modify,hu]

theorem step_addQueued (s : Teams) (ht : mine team) (away : ℕ → Prop) (d : ℤ) :
    Step mine away s (s.addQueued team d) := by
  refine ⟨⟨rfl,rfl,fun _ => ⟨rfl,rfl,rfl,rfl⟩⟩,⟨fun u hu => ?_,fun _ _ _ => rfl,fun _ _ _ => rfl,
    fun _ _ _ => rfl⟩,fun _ _ _ => rfl⟩
  have hne : u ≠ team := fun he => hu (by rwa [he])
  exact ⟨fun _ => rfl,Function.update_of_ne hne ..,Function.update_of_ne hne ..⟩

theorem Belongs.same (h : SameTasks s s') (hq : Belongs s mine q) : Belongs s' mine q := by
  cases q with
  | children type x =>
    show mine (s'.team x)
    rw [h.team]
    exact hq
  | taskgroup type g =>
    show mine (s'.groupTeam g)
    rw [h.groupTeam]
    exact hq
  | team u type => exact hq
  | locked l => trivial
  | suspended type n =>
    obtain ⟨x,hx,hs⟩ := hq
    exact ⟨x,by rwa [h.team],(h.task x).2.2.1.trans hs⟩

theorem step_callFamily (hn : Nested s) (hu : (s.task t).type = .untied) (ht : mine (s.team t)) (type : TaskType) (c : Call) :
    Step mine (· ≠ t) s (s.callFamily type (s.task t).parent (s.task t).taskgroup c t) := by
  have hparent : Step mine (· ≠ t) s (s.callOpt ((s.task t).parent.map (.children type)) c t) := by
    refine step_callOpt (fun q hq => ?_) c t
    obtain ⟨p,hp,rfl⟩ := Option.map_eq_some_iff.1 hq
    show mine (s.team p)
    rw [(hn.parent t p hu hp).1]
    exact ht
  refine hparent.trans (step_callOpt (fun q hq => Belongs.same hparent.same ?_) c t)
  obtain ⟨g,hg,rfl⟩ := Option.map_eq_some_iff.1 hq
  show mine (s.groupTeam g)
  rw [hn.taskgroup t g hu hg]
  exact ht

theorem step_callSuspended (ht : mine (s.team t)) (type : TaskType) (c : Call) {o : Option ℕ}
    (ho : o = (s.task t).suspendingThread) : Step mine (· ≠ t) s (s.callOpt (o.map (.suspended type)) c t) := by
  refine step_callOpt (fun q hq => ?_) c t
  obtain ⟨h,hh,rfl⟩ := Option.map_eq_some_iff.1 hq
  exact ⟨t,ht,ho ▸ hh⟩

/-- The UNTIED branch, for a team that may be that of the task. -/
theorem step_setBlockedUntied (hn : Nested s) (hu : (s.task t).type = .untied) (ht : mine (s.team t))
    (hteam : mine team) (b : Bool) : Step mine (· ≠ t) s (s.setBlockedUntied team t b) := by
  unfold setBlockedUntied
  dsimp only
  set c := if b then Call.block (s.task t).kind else .unblock
  set s₁ := if (s.task t).undeferredAncestor = none then
    s.callFamily .untied (s.task t).parent (s.task t).taskgroup c t else s with hs₁
  have h₁ : Step mine (· ≠ t) s s₁ := by
    rw [hs₁]
    split
    · exact step_callFamily hn hu ht .untied c
    · exact .refl mine _ s
  have h₂ : Step mine (· ≠ t) s (s₁.call (.team team .untied) c t) :=
    h₁.trans (step_call (show Belongs s₁ mine (.team team .untied) from hteam) c t)
  have h₃ := h₂.trans (step_setFlag _ mine (· ≠ t) t b)
  have h₄ := h₃.trans (step_callSuspended (show mine _ by rwa [h₃.same.team]) .untied c (h₃.same.task t).2.2.1.symm)
  exact h₄.trans (step_addQueued _ hteam _ _)

theorem step_setBlockedTied (ht : mine (s.team t)) (b : Bool) : Step mine (· ≠ t) s (s.setBlockedTied t b) := by
  have h₁ : Step mine (· ≠ t) s (s.modify t fun x => { x with isBlocked := b }) :=
    step_setFlag s mine _ t b
  exact h₁.trans (step_callSuspended (show mine _ by rwa [h₁.same.team]) .tied _ (h₁.same.task t).2.2.1.symm)

/-- gomp_task_handle_blocking is about the task and its ancestors. -/
theorem step_handleBlocking (hteam : mine team) (fuel : ℕ) : ∀ {s : Teams} {t : ℕ}, Nested s → mine (s.team t) →
    Step mine (t < ·) s (handleBlocking team fuel s t) := by
  induction fuel with
  | zero => exact fun {s t} _ _ => .refl mine _ s
  | succ fuel ih =>
    intro s t hn ht
    have haway : ∀ u, t < u → u ≠ t := fun u hu => hu.ne'
    unfold handleBlocking
    dsimp only
    split
    · split
      · exact .refl mine _ s
      · exact (step_setBlockedTied ht _).mono haway
    · rename_i hu
      split
      · exact .refl mine _ s
      · have hstep : Step mine (t < ·) s (s.setBlockedUntied team t (!(s.task t).isBlocked)) :=
          (step_setBlockedUntied hn hu ht hteam _).mono haway
        split
        · exact hstep
        · rename_i p hp
          obtain ⟨hparent,-⟩ := Option.filter_eq_some_iff.1 hp
          have hn' := hstep.same.nested hn
          obtain ⟨heq,hlt⟩ := hn'.parent t p ((hstep.same.task t).2.2.2.trans hu) hparent
          have hp := ih hn' (by rw [heq,hstep.same.team]; exact ht)
          exact hstep.trans (hp.mono fun u hu => hlt.trans hu)

/-- A call on another queue leaves where the task stands; a call for it in the queue moves it. -/
theorem call_status_self (s : Teams) (q : QRef) (c : Call) (t : ℕ) :
    (s.call q c t).status q t = c.result q.plain (s.status q t) := by
  rw [call_status,if_pos ⟨rfl,rfl⟩]

theorem call_status_other (h : q' ≠ q) : (s.call q c t).status q' u = s.status q' u := by
  rw [call_status,if_neg fun he => h he.1]

theorem call_status_at (s : Teams) (q q' : QRef) (c : Call) (t : ℕ) : (s.call q c t).status q' t =
    if q' = q then c.result q'.plain (s.status q' t) else s.status q' t := by
  by_cases hq : q' = q
  · subst hq
    exact (call_status_self s q' c t).trans (if_pos rfl).symm
  · rw [call_status_other hq,if_neg hq]

theorem callOpt_status (s : Teams) (o : Option QRef) (q : QRef) (c : Call) (t : ℕ) :
    (s.callOpt o c t).status q t = if o = some q then c.result q.plain (s.status q t) else s.status q t := by
  rcases o with _ | q'
  · rfl
  · by_cases hq : q = q'
    · subst hq
      exact (call_status_self s q c t).trans (if_pos rfl).symm
    · rw [if_neg fun he => hq (Option.some.inj he).symm]
      exact call_status_other hq

theorem unblock_blocked (plain : Bool) : Call.unblock.result plain (some .blocked) = some .ready := by
  cases plain <;> rfl

@[simp] theorem call_queued (s : Teams) (q : QRef) (c : Call) (t : ℕ) : (s.call q c t).queued = s.queued := rfl

@[simp] theorem callOpt_queued (s : Teams) (o : Option QRef) (c : Call) (t : ℕ) :
    (s.callOpt o c t).queued = s.queued := by
  cases o <;> rfl

@[simp] theorem callFamily_queued (s : Teams) (type : TaskType) (parent taskgroup : Option ℕ) (c : Call) (t : ℕ) :
    (s.callFamily type parent taskgroup c t).queued = s.queued := by
  simp [callFamily]

/-- Only the count of the team that is passed in changes. -/
theorem setBlockedUntied_queued (s : Teams) (team t : ℕ) (b : Bool) : (s.setBlockedUntied team t b).queued =
    Function.update s.queued team (s.queued team + if b then -1 else 1) := by
  by_cases ha : (s.task t).undeferredAncestor = none <;> simp [setBlockedUntied,addQueued,modify,ha]

/-- The queues that the release unblocks for a thread of the given team. -/
theorem setBlockedUntied_status (s : Teams) (team t : ℕ) (q : QRef) :
    (s.setBlockedUntied team t false).status q t =
      if ((s.task t).undeferredAncestor = none ∧ ((s.task t).parent.map (QRef.children .untied) = some q ∨
          (s.task t).taskgroup.map (QRef.taskgroup .untied) = some q)) ∨ q = .team team .untied ∨
          (s.task t).suspendingThread.map (QRef.suspended .untied) = some q then
        Call.unblock.result q.plain (s.status q t) else s.status q t := by
  set x := s.task t with hx
  set s₁ := if x.undeferredAncestor = none then s.callFamily .untied x.parent x.taskgroup .unblock t else s with hs₁
  have hfinal : (s.setBlockedUntied team t false).status q t =
      (((s₁.call (.team team .untied) .unblock t).modify t fun x => { x with isBlocked := false }).callOpt
        (x.suspendingThread.map (.suspended .untied)) .unblock t).status q t := rfl
  have hmodify (u : Teams) : (u.modify t fun x => { x with isBlocked := false }).status q t = u.status q t := rfl
  rw [hfinal,callOpt_status,hmodify,call_status_at,hs₁]
  by_cases ha : x.undeferredAncestor = none
  · cases q <;> simp [ha,callFamily,callOpt_status]
  · cases q <;> simp [ha]

theorem mem_ownQueues (s : Teams) (t : ℕ) (q : QRef) : q ∈ s.ownQueues t ↔
    ((s.task t).undeferredAncestor = none ∧ ((s.task t).parent.map (QRef.children .untied) = some q ∨
        (s.task t).taskgroup.map (QRef.taskgroup .untied) = some q)) ∨ q = .team (s.team t) .untied ∨
      (s.task t).suspendingThread.map (QRef.suspended .untied) = some q := by
  unfold ownQueues
  by_cases ha : (s.task t).undeferredAncestor = none <;> simp [ha,or_assoc]

/-- The queues of the waiter are not that of the lock. -/
theorem ne_locked (h : q ∈ s.ownQueues t) : q ≠ .locked lock := by
  rintro rfl
  rw [mem_ownQueues] at h
  simp at h

end Frames

section Suspension
variable {s : Teams} {lock t : ℕ}

@[simp] theorem call_task (s : Teams) (q : QRef) (c : Call) (t : ℕ) : (s.call q c t).task = s.task := rfl

@[simp] theorem callOpt_task (s : Teams) (o : Option QRef) (c : Call) (t : ℕ) : (s.callOpt o c t).task = s.task := by
  cases o <;> rfl

theorem suspendLocked_task (s : Teams) (thr team lock t : ℕ) : (s.suspendLocked thr team lock t).task =
    Function.update s.task t { s.task t with isBlocked := true, suspendingThread := some thr, kind := .waiting } := by
  by_cases hk : (s.task t).kind = .undeferred <;> simp [suspendLocked,callFamily,modify,hk]

theorem callOpt_team (s : Teams) (o : Option QRef) (c : Call) (t : ℕ) :
    (s.callOpt o c t).team = s.team ∧ (s.callOpt o c t).groupTeam = s.groupTeam := by
  cases o <;> exact ⟨rfl,rfl⟩

theorem suspendLocked_team (s : Teams) (thr team lock t : ℕ) : (s.suspendLocked thr team lock t).team = s.team ∧
    (s.suspendLocked thr team lock t).groupTeam = s.groupTeam := by
  by_cases hk : (s.task t).kind = .undeferred
  · simp [suspendLocked,call,modify,hk]
  · simp [suspendLocked,call,modify,callFamily,callOpt_team,hk]

theorem suspendLocked_nested (hn : Nested s) (thr team lock t : ℕ) : Nested (s.suspendLocked thr team lock t) := by
  obtain ⟨hteam,hgroup⟩ := suspendLocked_team s thr team lock t
  have hfields (u : ℕ) : ((s.suspendLocked thr team lock t).task u).parent = (s.task u).parent ∧
      ((s.suspendLocked thr team lock t).task u).taskgroup = (s.task u).taskgroup ∧
      ((s.suspendLocked thr team lock t).task u).type = (s.task u).type := by
    rw [suspendLocked_task]
    by_cases hu : u = t <;> simp [hu]
  refine ⟨fun u p hu hp => ?_,fun u g hu hg => ?_⟩
  · rw [(hfields u).2.2] at hu
    rw [(hfields u).1] at hp
    rw [hteam]
    exact hn.parent u p hu hp
  · rw [(hfields u).2.2] at hu
    rw [(hfields u).2.1] at hg
    rw [hteam,hgroup]
    exact hn.taskgroup u g hu hg

/-- A task that runs for its team and may suspend: it is in no queue but those of its parent and taskgroup. -/
structure Runs (s : Teams) (thr lock t : ℕ) : Prop where
  untied : (s.task t).type = .untied
  kind : (s.task t).kind = .undeferred ↔ (s.task t).undeferredAncestor ≠ none
  parent : ∀ p, (s.task t).parent = some p → s.status (.children .untied p) t = some .running
  taskgroup : ∀ g, (s.task t).taskgroup = some g → s.status (.taskgroup .untied g) t = some .running
  team : s.status (.team (s.team t) .untied) t = none
  suspended : s.status (.suspended .untied thr) t = none
  locked : s.status (.locked lock) t = none

theorem modify_status (s : Teams) (t u : ℕ) (f : Task → Task) (q : QRef) :
    (s.modify t f).status q u = s.status q u := rfl

/-- Where the calls of the suspension leave the task. -/
theorem suspendLocked_status (s : Teams) (thr team lock t : ℕ) (q : QRef) :
    (s.suspendLocked thr team lock t).status q t =
      if q = .locked lock then (Call.insert false).result q.plain (s.status q t)
      else if q = .suspended .untied thr ∨ q = .team team .untied then
        (Call.insert true).result q.plain (s.status q t)
      else if (s.task t).kind ≠ .undeferred ∧ ((s.task t).parent.map (QRef.children .untied) = some q ∨
          (s.task t).taskgroup.map (QRef.taskgroup .untied) = some q) then
        (Call.block (s.task t).kind).result q.plain (s.status q t)
      else s.status q t := by
  by_cases hk : (s.task t).kind = .undeferred
  · cases q <;> simp [suspendLocked,call_status_at,modify_status,hk]
  · cases q <;> simp [suspendLocked,call_status_at,callOpt_status,callFamily,modify_status,hk]

/-- The suspension leaves the task among those that a release can choose. -/
theorem suspendLocked_waits {thr : ℕ} (hr : Runs s thr lock t) :
    Waits (s.suspendLocked thr (s.team t) lock t) lock t := by
  refine ⟨?_,?_,fun q hq => ?_⟩
  · rw [suspendLocked_status,if_pos rfl,hr.locked]
    rfl
  · rw [suspendLocked_task,Function.update_self]
    exact hr.untied
  · rw [mem_ownQueues,suspendLocked_task,Function.update_self,(suspendLocked_team ..).1] at hq
    rw [suspendLocked_status]
    rcases hq with ⟨hdeferred,hfamily⟩ | rfl | hsusp
    · have hkind : (s.task t).kind ≠ .undeferred := fun h => hr.kind.1 h hdeferred
      rcases hfamily with hp | hg
      · obtain ⟨p,hparent,rfl⟩ := Option.map_eq_some_iff.1 hp
        replace hparent : (s.task t).parent = some p := hparent
        rw [hr.parent p hparent]
        simp [hkind,hparent,Call.result,Call.allowed,Call.target]
      · obtain ⟨g,hgroup,rfl⟩ := Option.map_eq_some_iff.1 hg
        replace hgroup : (s.task t).taskgroup = some g := hgroup
        rw [hr.taskgroup g hgroup]
        simp [hkind,hgroup,Call.result,Call.allowed,Call.target]
    · rw [hr.team]
      simp [Call.result,Call.allowed,Call.target]
    · obtain rfl := Option.some.inj hsusp
      rw [hr.suspended]
      simp [Call.result,Call.allowed,Call.target]

end Suspension

section Release
variable {s : Teams} {team lock t : ℕ}

theorem releaseTask_untied (hu : (s.task t).type = .untied) :
    s.releaseTask team lock t = (s.call (.locked lock) (.remove false) t).setBlockedUntied team t false := by
  unfold releaseTask
  dsimp only
  rw [show ((s.call (.locked lock) (.remove false) t).task t).type = .untied from hu]

/-- What comes after the chosen task is about its ancestors. -/
theorem step_handleLocking {mine : ℕ → Prop} (hn : Nested s) (hu : (s.task t).type = .untied) (hown : mine (s.team t))
    (hteam : mine team) : SameTasks s (s.releaseTask team lock t) ∧ Keeps mine s (s.gompTaskHandleLocking team lock t) ∧
      ∀ q, (s.gompTaskHandleLocking team lock t).status q t = (s.releaseTask team lock t).status q t := by
  have h₁ : Step mine (· ≠ t) s (s.call (.locked lock) (.remove false) t) :=
    step_call (show Belongs s mine (.locked lock) from trivial) _ t
  have h₂ := h₁.trans (step_setBlockedUntied (h₁.same.nested hn) (show _ = _ from hu) (show mine _ from hown) hteam false)
  rw [← releaseTask_untied hu] at h₂
  have hu₂ : ((s.releaseTask team lock t).task t).type = .untied := (h₂.same.task t).2.2.2.trans hu
  unfold gompTaskHandleLocking
  dsimp only
  rw [hu₂]
  dsimp only
  split
  · exact ⟨h₂.same,h₂.keeps,fun _ => rfl⟩
  · rename_i p hp
    obtain ⟨hparent,-⟩ := Option.filter_eq_some_iff.1 hp
    have hn₂ := h₂.same.nested hn
    obtain ⟨heq,hlt⟩ := hn₂.parent t p hu₂ hparent
    have h₃ := @step_handleBlocking mine team hteam (p + 1) _ p hn₂ (by rw [heq,h₂.same.team]; exact hown)
    have hkeeps : Step mine (fun _ => False) s _ :=
      (h₂.mono fun _ hu => hu.elim).trans (h₃.mono fun _ hu => hu.elim)
    exact ⟨h₂.same,hkeeps.keeps,h₃.status t hlt⟩

/-- Where the chosen task stands after the release. -/
theorem handleLocking_status (hn : Nested s) (hw : Waits s lock t) (q : QRef) :
    (s.gompTaskHandleLocking team lock t).status q t =
      ((s.call (.locked lock) (.remove false) t).setBlockedUntied team t false).status q t := by
  have h := @step_handleLocking s team lock t (fun _ => True) hn hw.untied trivial trivial
  rw [h.2.2 q,releaseTask_untied hw.untied]

/-- A thread of the waiter's team does what is to be done and modifies no other team. -/
theorem released_of_eq (hn : Nested s) (hw : Waits s lock t) : Released s (s.team t) lock t := by
  refine ⟨?_,fun q hq => ?_,?_,(@step_handleLocking s (s.team t) lock t (· = s.team t) hn hw.untied rfl rfl).2.1⟩
  · rw [handleLocking_status hn hw,setBlockedUntied_status,if_neg (by simp),call_status_self,hw.chosen]
    rfl
  · have hother : (s.call (.locked lock) (.remove false) t).status q t = s.status q t := call_status_other (ne_locked hq)
    rw [handleLocking_status hn hw,setBlockedUntied_status,hother,hw.blocked q hq,unblock_blocked]
    exact if_pos ((mem_ownQueues s t q).1 hq)
  · rw [releaseTask_untied hw.untied,setBlockedUntied_queued,call_queued]
    exact Function.update_self ..

/-- A thread of another team counts the waiter for its own team.  Only the counts are looked at: the call on the queue
of that team is for a task that is not in it. -/
theorem not_released_of_ne (hw : Waits s lock t) (hne : team ≠ s.team t) : ¬ Released s team lock t := by
  intro h
  have hsame : (s.releaseTask team lock t).queued (s.team t) = s.queued (s.team t) := by
    rw [releaseTask_untied hw.untied,setBlockedUntied_queued,call_queued]
    exact Function.update_of_ne hne.symm ..
  have hcounted := h.counted
  omega

/-- Two teams.  Task 1 of team 0 runs; its parent is the implicit task 0. -/
def twoTeams : Teams where
  task t := if t = 1 then { parent := some 0, type := .untied, kind := .tied } else {}
  team t := if t ≤ 1 then 0 else 1
  groupTeam _ := 0
  queue := Function.update (fun _ => .empty) (.children .untied 0) (TaskQueue.empty.exec false .insertRunning 1)
  queued _ := 0
  pending _ := false

theorem twoTeams_nested : Nested twoTeams := by
  refine ⟨fun t p _ hp => ?_,fun t g _ hg => ?_⟩
  · by_cases ht : t = 1
    · subst ht
      obtain rfl : 0 = p := Option.some.inj hp
      exact ⟨rfl,by omega⟩
    · simp [twoTeams,ht] at hp
  · by_cases ht : t = 1 <;> simp [twoTeams,ht] at hg

theorem twoTeams_runs : Runs twoTeams 0 0 1 := by
  refine ⟨rfl,by decide,fun p hp => ?_,fun g hg => ?_,by decide,by decide,by decide⟩
  · obtain rfl : 0 = p := Option.some.inj hp
    decide
  · cases hg

end Release

end Teams

end GompUlt.TeamRelease
