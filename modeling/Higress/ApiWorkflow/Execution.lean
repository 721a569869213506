import Mathlib.Data.List.Nodup
import Mathlib.Logic.Relation
import Mathlib.Order.Basic
import Higress.ApiWorkflow.Workflow
import Higress.Lib.Run

/-!
The execution of an acyclic workflow without conditionals, for one request after the configuration
was loaded. Whatever the order of the answers, no task is called twice, and a task is called only
when all tasks before it have answered.

The loop over the edges from a task ends at the first edge whose target still waits for another one
(`cutsShort`), so edges that come later are lost, and with them the tasks behind them. In the runs
in which no answer is cut short, every edge is looked at, and when every call has been answered every
task that can be reached from `start` has been called.
-/

namespace Higress.ApiWorkflow

open Lib

/-! ### Tasks of a request -/

/-- The task that is called. -/
def Action.target? : Action → Option GoString
  | .call edge _ _ _ => some edge.target
  | _ => none

/-- The tasks that were called, in order. -/
def Request.called (r : Request) : List GoString := r.actions.filterMap Action.target?

/-- The tasks that have answered, in order. -/
def Request.answeredTasks (r : Request) : List GoString :=
  r.answered.filterMap fun call => r.actions[call]?.bind Action.target?

/-- Every call has been answered. -/
def Request.Idle (r : Request) : Prop :=
  ∀ call, (r.actions[call]?.bind Action.target?).isSome → call ∈ r.answered

/-! ### Workflows -/

/-- An edge between two tasks, or from `start` to a task. -/
def Config.Arrow (cfg : Config) (source target : GoString) : Prop :=
  IsTask target ∧ ∃ edge ∈ cfg.edges, edge.source = source ∧ edge.target = target

/-- There is a path with this many edges from `start`. -/
inductive Config.AtDepth (cfg : Config) : GoString → ℕ → Prop
  | start {edge : Edge} (hedge : edge ∈ cfg.edges) (hsource : edge.source = taskStart) :
      Config.AtDepth cfg edge.target 1
  | next {edge : Edge} {depth : ℕ} (hsource : Config.AtDepth cfg edge.source depth)
      (htask : IsTask edge.source) (hedge : edge ∈ cfg.edges) :
      Config.AtDepth cfg edge.target (depth + 1)

def Config.Reachable (cfg : Config) (task : GoString) : Prop :=
  IsTask task ∧ ∃ depth, cfg.AtDepth task depth

/-- An acyclic workflow without conditionals, in which the edge from `start` to a task is the only
one to it, and whose depth stays within the limit. -/
structure Config.Plain (cfg : Config) : Prop where
  acyclic : ∀ task, ¬ Relation.TransGen cfg.Arrow task task
  unconditional : ∀ edge ∈ cfg.edges, edge.conditional = []
  entry : ∀ edge ∈ cfg.edges, edge.source = taskStart → IsTask edge.target →
    cfg.edges.countP (·.target = edge.target) = 1
  depth : ∀ name depth, cfg.AtDepth name depth → depth ≤ cfg.maxDepth

/-- No task that can be reached waits for one that cannot. -/
def Config.Fed (cfg : Config) : Prop :=
  ∀ edge ∈ cfg.edges, cfg.Reachable edge.target →
    edge.source = taskStart ∨ cfg.Reachable edge.source

theorem Config.AtDepth.pos {cfg : Config} {name : GoString} {depth : ℕ}
    (h : cfg.AtDepth name depth) : 0 < depth := by
  cases h with
  | start => exact Nat.one_pos
  | next => exact Nat.succ_pos _

theorem Config.AtDepth.transGen {cfg : Config} {name : GoString} {depth : ℕ}
    (h : cfg.AtDepth name depth) (htask : IsTask name) :
    Relation.TransGen cfg.Arrow taskStart name := by
  induction h with
  | start hedge hsource => exact .single ⟨htask, _, hedge, hsource, rfl⟩
  | next _ hsource hedge ih => exact (ih hsource).tail ⟨htask, _, hedge, rfl, rfl⟩

theorem Config.Plain.ne_start {cfg : Config} (hcfg : cfg.Plain) {task : GoString}
    (h : cfg.Reachable task) : task ≠ taskStart := by
  rintro rfl
  obtain ⟨htask, depth, hdepth⟩ := h
  exact hcfg.acyclic _ (hdepth.transGen htask)

/-- A rank that grows along the edges shows that a workflow has no cycle and bounds its depth. -/
theorem Config.AtDepth.le_rank {cfg : Config} {rank : GoString → ℕ}
    (hrank : ∀ edge ∈ cfg.edges, rank edge.source < rank edge.target) {name : GoString} {depth : ℕ}
    (h : cfg.AtDepth name depth) : depth ≤ rank name := by
  induction h with
  | start hedge _ =>
      have := hrank _ hedge
      omega
  | next _ _ hedge ih =>
      have := hrank _ hedge
      omega

theorem Config.acyclic_of_rank {cfg : Config} {rank : GoString → ℕ}
    (hrank : ∀ edge ∈ cfg.edges, rank edge.source < rank edge.target) (task : GoString) :
    ¬ Relation.TransGen cfg.Arrow task task := by
  have hlt {n m : GoString} (h : Relation.TransGen cfg.Arrow n m) : rank n < rank m := by
    induction h with
    | single harrow =>
        obtain ⟨-, edge, hedge, rfl, rfl⟩ := harrow
        exact hrank edge hedge
    | tail _ harrow ih =>
        obtain ⟨-, edge, hedge, rfl, rfl⟩ := harrow
        exact ih.trans (hrank edge hedge)
  exact fun h => (hlt h).false

/-! ### The walk over the edges from a task -/

/-- An edge from the task finds its target waiting for more than this edge, and another edge from
the task comes later. -/
def cutsShort (task : GoString) : List Edge → Status → Bool
  | [], _ => false
  | next :: edges, s =>
      if next.source = task ∧ IsTask next.target then
        if 1 < s.count next.target then edges.any (·.source = task)
        else cutsShort task edges (s.dec next.target)
      else cutsShort task edges s

/-- The number of edges from one task to another. -/
def edgeCount (source target : GoString) (edges : List Edge) : ℕ :=
  edges.countP fun edge => edge.source = source ∧ edge.target = target

theorem edgeCount_eq_zero {source target : GoString} {edges : List Edge}
    (h : ∀ edge ∈ edges, edge.source ≠ source) : edgeCount source target edges = 0 := by
  rw [edgeCount, List.countP_eq_zero]
  intro edge hedge
  simp [h edge hedge]

theorem edgeCount_pos {source : GoString} {edges : List Edge} {edge : Edge} (hedge : edge ∈ edges)
    (hsource : edge.source = source) : 0 < edgeCount source edge.target edges :=
  List.countP_pos_iff.2 ⟨edge, hedge, by simp [hsource]⟩

theorem edgeCount_cons {source target : GoString} {next : Edge} {edges : List Edge} :
    edgeCount source target (next :: edges) = edgeCount source target edges +
      if next.source = source ∧ next.target = target then 1 else 0 := by
  simp [edgeCount, List.countP_cons]

@[simp] theorem Status.count_dec_self (s : Status) (name : GoString) :
    (s.dec name).count name = s.count name - 1 := by
  simp [Status.dec, Status.count]

theorem Status.count_dec_of_ne (s : Status) {name other : GoString} (h : other ≠ name) :
    (s.dec name).count other = s.count other := by
  simp [Status.dec, Status.count, h]

theorem arrive_wait {next : Edge} {s : Status} (htarget : IsTask next.target)
    (hwait : 1 < s.count next.target) :
    arrive next s = ⟨s.dec next.target, [next.target], some []⟩ := by
  have hpos : 0 < (s.dec next.target).count next.target := by
    rw [Status.count_dec_self]
    omega
  simp only [arrive, if_pos htarget, if_pos hpos]

theorem arrive_ready {next : Edge} {s : Status} (htarget : IsTask next.target)
    (hone : s.count next.target = 1) :
    arrive next s = ⟨s.dec next.target, [next.target], none⟩ := by
  have hzero : (s.dec next.target).count next.target = 0 := by
    rw [Status.count_dec_self]
    omega
  simp [arrive, htarget, hzero]

/-- The task behind an edge can be called: its request can be built, and the call is accepted. -/
def Callable (libs : Libs) (cfg : Config) (bodies : Bodies) (callError : GoString → Option GoString)
    (edge : Edge) : Prop :=
  (∃ task, wrapperTask libs cfg edge bodies = .ok task) ∧ callError edge.target = none

section Walk

variable {libs : Libs} {cfg : Config} {visit : Visit} {task : GoString}

theorem exists_recursive {edge : Edge} (hdepth : visit.depth ≤ cfg.maxDepth)
    (hcall : IsTask edge.target → Callable libs cfg visit.bodies visit.callError edge) :
    ∃ action, recursive libs cfg visit edge = .ok action ∧
      action.target? = if IsTask edge.target then some edge.target else none := by
  unfold recursive
  rw [if_neg (Nat.not_lt.2 hdepth)]
  split
  next hend =>
    have htask : ¬ IsTask edge.target := fun h => h.2 hend
    exact ⟨_, rfl, by simp [Action.target?, htask]⟩
  next hend =>
    split
    next hcontinue =>
      have htask : ¬ IsTask edge.target := fun h => h.1 hcontinue
      exact ⟨_, rfl, by simp [Action.target?, htask]⟩
    next hcontinue =>
      have htask : IsTask edge.target := ⟨hcontinue, hend⟩
      obtain ⟨⟨request, hrequest⟩, herror⟩ := hcall htask
      simp [hrequest, herror, Action.target?, htask]

theorem recursive_eq_call {edge edge' : Edge} {depth timeout : ℕ} {request : Task}
    (h : recursive libs cfg visit edge = .ok (.call edge' depth request timeout)) :
    edge' = edge ∧ depth = visit.depth ∧ IsTask edge.target ∧ cfg.nodes ≠ none := by
  unfold recursive at h
  split at h
  · cases h
  split at h
  · cases h
  rename_i hend
  split at h
  · cases h
  rename_i hcontinue
  split at h
  · cases h
  rename_i request' hrequest
  split at h
  · cases h
  · cases h
    refine ⟨rfl, rfl, ⟨hcontinue, hend⟩, fun hnodes => ?_⟩
    simp [wrapperTask, Config.node, hnodes] at hrequest

theorem isPass_of_unconditional {edge : Edge} (h : edge.conditional = []) (bodies : Bodies) :
    isPass libs edge bodies = .ok false := by
  rw [isPass, if_pos h]

/-- The calls that a walk makes are for edges from the task, at the depth of the walk. -/
theorem of_call_mem_nextLoop {edges : List Edge} {s : Status} {edge : Edge} {depth timeout : ℕ}
    {request : Task}
    (h : Action.call edge depth request timeout ∈ (nextLoop libs cfg visit task edges s).actions) :
    edge ∈ edges ∧ edge.source = task ∧ depth = visit.depth ∧ IsTask edge.target ∧
      cfg.nodes ≠ none := by
  induction edges generalizing s with
  | nil => simp [nextLoop] at h
  | cons next edges ih =>
      have hrest {s : Status}
          (h : Action.call edge depth request timeout ∈
            (nextLoop libs cfg visit task edges s).actions) :
          edge ∈ next :: edges ∧ edge.source = task ∧ depth = visit.depth ∧ IsTask edge.target ∧
            cfg.nodes ≠ none :=
        ⟨List.mem_cons_of_mem _ (ih h).1, (ih h).2⟩
      rw [nextLoop] at h
      dsimp only at h
      split at h
      next => exact hrest h
      next hsource =>
        split at h
        next actions hleave =>
          -- what is left behind when the walk ends here is no call
          unfold arrive at hleave
          dsimp only at hleave
          split_ifs at hleave <;> cases hleave <;> simp at h
        next =>
          split at h
          next => simp at h
          next => exact hrest h
          next =>
            split at h
            next => simp at h
            next action haction =>
              rcases List.mem_cons.1 h with rfl | h
              · obtain ⟨rfl, hrest⟩ := recursive_eq_call haction
                exact ⟨List.mem_cons_self, not_not.1 hsource, hrest⟩
              · exact hrest h

/-- What a walk that is not cut short does: it looks at every edge from the task, counts down the
counters behind them, and calls the tasks that wait for no other edge. -/
structure Followed (task : GoString) (edges : List Edge) (s : Status) (walk : Walk) : Prop where
  considered : walk.considered = edges.filter (·.source = task)
  count : ∀ name, IsTask name →
    walk.status.count name = s.count name - edgeCount task name edges
  nodup : (walk.actions.filterMap Action.target?).Nodup
  mem_called : ∀ name, name ∈ walk.actions.filterMap Action.target? ↔
    IsTask name ∧ 0 < edgeCount task name edges ∧ s.count name = edgeCount task name edges

/-- The rest of the edges when one from the task has been passed over or followed. -/
theorem Followed.of_skip {next : Edge} {edges : List Edge} {s : Status} {walk : Walk}
    (h : Followed task edges s walk) (hsource : next.source ≠ task) :
    Followed task (next :: edges) s walk := by
  have hskip (name : GoString) :
      edgeCount task name (next :: edges) = edgeCount task name edges := by
    simp [edgeCount_cons, hsource]
  exact ⟨by simpa [hsource] using h.considered, by simpa [hskip] using h.count, h.nodup,
    by simpa [hskip] using h.mem_called⟩

theorem Followed.of_done {next : Edge} {edges : List Edge} {s : Status} {walk : Walk}
    {action : Action} (h : Followed task edges s walk) (hsource : next.source = task)
    (htarget : ¬ IsTask next.target) (haction : action.target? = none) (counted : List GoString) :
    Followed task (next :: edges) s
      ⟨walk.status, next :: walk.considered, counted, action :: walk.actions⟩ := by
  have hskip {name : GoString} (hname : IsTask name) :
      edgeCount task name (next :: edges) = edgeCount task name edges := by
    have hne : next.target ≠ name := fun h => htarget (h ▸ hname)
    simp [edgeCount_cons, hne]
  refine ⟨by simp [hsource, h.considered], fun name hname => ?_, ?_, fun name => ?_⟩
  · rw [hskip hname]
    exact h.count name hname
  · simpa [haction] using h.nodup
  · rw [List.filterMap_cons_none haction, h.mem_called]
    refine and_congr_right fun hname => ?_
    rw [hskip hname]

theorem Followed.of_call {next : Edge} {edges : List Edge} {s : Status} {walk : Walk}
    {action : Action} (h : Followed task edges (s.dec next.target) walk)
    (hsource : next.source = task) (htarget : IsTask next.target)
    (hone : s.count next.target = 1) (hlast : edgeCount task next.target edges = 0)
    (haction : action.target? = some next.target) (counted : List GoString) :
    Followed task (next :: edges) s
      ⟨walk.status, next :: walk.considered, counted, action :: walk.actions⟩ := by
  have hother {name : GoString} (hname : name ≠ next.target) :
      edgeCount task name (next :: edges) = edgeCount task name edges := by
    simp [edgeCount_cons, hname.symm]
  have hself : edgeCount task next.target (next :: edges) = 1 := by
    simp [edgeCount_cons, hsource, hlast]
  have hnot : next.target ∉ walk.actions.filterMap Action.target? := by
    rw [h.mem_called]
    omega
  refine ⟨by simp [hsource, h.considered], fun name hname => ?_, ?_, fun name => ?_⟩
  · change walk.status.count name = _
    rw [h.count name hname]
    by_cases heq : name = next.target
    · rw [heq, Status.count_dec_self, hself, hlast]
      omega
    · rw [Status.count_dec_of_ne s heq, hother heq]
  · rw [List.filterMap_cons_some haction]
    exact List.nodup_cons.2 ⟨hnot, h.nodup⟩
  · rw [List.filterMap_cons_some haction, List.mem_cons, h.mem_called]
    by_cases heq : name = next.target
    · rw [heq, hself, hone]
      simp [htarget]
    · rw [Status.count_dec_of_ne s heq, hother heq]
      simp [heq]

/-- A walk that ends at the last edge from the task, because the task behind it still waits. -/
theorem Followed.of_wait {next : Edge} {edges : List Edge} {s : Status}
    (hsource : next.source = task) (hwait : 1 < s.count next.target)
    (hlast : ∀ edge ∈ edges, edge.source ≠ task) (counted : List GoString) :
    Followed task (next :: edges) s ⟨s.dec next.target, [next], counted, []⟩ := by
  have hself : edgeCount task next.target (next :: edges) = 1 := by
    simp [edgeCount_cons, hsource, edgeCount_eq_zero hlast]
  have hother {name : GoString} (hname : name ≠ next.target) :
      edgeCount task name (next :: edges) = 0 := by
    simp [edgeCount_cons, hname.symm, edgeCount_eq_zero hlast]
  refine ⟨?_, fun name _ => ?_, List.nodup_nil, fun name => ?_⟩
  · have hnone : edges.filter (·.source = task) = [] := by
      simpa [List.filter_eq_nil_iff] using hlast
    simp [hsource, hnone]
  · change (s.dec next.target).count name = _
    by_cases heq : name = next.target
    · rw [heq, Status.count_dec_self, hself]
      rfl
    · rw [Status.count_dec_of_ne s heq, hother heq]
      simp
  · simp only [List.filterMap_nil, List.not_mem_nil, false_iff]
    rintro ⟨-, hpos, heq⟩
    by_cases hname : name = next.target
    · rw [hname, hself] at heq
      omega
    · rw [hother hname] at hpos
      omega

theorem followed_nextLoop {edges : List Edge} {s : Status}
    (hcount : ∀ edge ∈ edges, edge.source = task → IsTask edge.target →
      (edgeCount task edge.target edges : ℤ) ≤ s.count edge.target)
    (hcut : cutsShort task edges s = false) (hcond : ∀ edge ∈ edges, edge.conditional = [])
    (hdepth : ∀ edge ∈ edges, edge.source = task → visit.depth ≤ cfg.maxDepth)
    (hcall : ∀ edge ∈ edges, edge.source = task → IsTask edge.target → s.count edge.target = 1 →
      Callable libs cfg visit.bodies visit.callError edge) :
    Followed task edges s (nextLoop libs cfg visit task edges s) := by
  induction edges generalizing s with
  | nil =>
      exact ⟨rfl, by simp [nextLoop, edgeCount], by simp [nextLoop], by simp [nextLoop, edgeCount]⟩
  | cons next edges ih =>
      have hcond' : ∀ edge ∈ edges, edge.conditional = [] :=
        fun edge hedge => hcond edge (List.mem_cons_of_mem _ hedge)
      have hdepth' := fun edge hedge => hdepth edge (List.mem_cons_of_mem _ hedge)
      have hcall' := fun edge hedge => hcall edge (List.mem_cons_of_mem _ hedge)
      have hpass := @isPass_of_unconditional libs _ (hcond next List.mem_cons_self) visit.bodies
      have hcount' {edge : Edge} (hedge : edge ∈ edges) (hs : edge.source = task)
          (ht : IsTask edge.target) :
          (edgeCount task edge.target edges : ℤ) ≤ s.count edge.target := by
        have := hcount edge (List.mem_cons_of_mem _ hedge) hs ht
        rw [edgeCount_cons] at this
        omega
      by_cases hsource : next.source = task
      case neg =>
        rw [nextLoop, if_pos hsource]
        exact (ih (fun edge hedge => hcount' hedge) (by simpa [cutsShort, hsource] using hcut)
          hcond' hdepth' hcall').of_skip hsource
      by_cases htarget : IsTask next.target
      case neg =>
        obtain ⟨action, haction, hnone⟩ :=
          @exists_recursive libs cfg visit next (hdepth next List.mem_cons_self hsource)
            fun h => absurd h htarget
        have hwalk := ih (fun edge hedge => hcount' hedge)
          (by simpa [cutsShort, htarget] using hcut) hcond' hdepth' hcall'
        simpa [nextLoop, hsource, arrive, htarget, hpass, haction] using
          hwalk.of_done hsource htarget (by simpa [htarget] using hnone) _
      by_cases hwait : 1 < s.count next.target
      case pos =>
        have hlast : ∀ edge ∈ edges, edge.source ≠ task := by
          simpa [cutsShort, hsource, htarget, hwait] using hcut
        simpa [nextLoop, hsource, arrive_wait htarget hwait] using
          Followed.of_wait hsource hwait hlast [next.target]
      case neg =>
        -- the edge is the last one that its target waits for, and the only one from this task
        have hfew := hcount next List.mem_cons_self hsource htarget
        rw [edgeCount_cons, if_pos ⟨hsource, rfl⟩] at hfew
        have hone : s.count next.target = 1 := by omega
        have hlast : edgeCount task next.target edges = 0 := by omega
        have hne {edge : Edge} (hedge : edge ∈ edges) (hs : edge.source = task) :
            edge.target ≠ next.target := by
          intro heq
          have := edgeCount_pos hedge hs
          rw [heq] at this
          omega
        obtain ⟨action, haction, htask⟩ := @exists_recursive libs cfg visit next
          (hdepth next List.mem_cons_self hsource) fun _ => hcall next List.mem_cons_self hsource htarget hone
        have hwalk := ih
          (fun edge hedge hs ht => by
            rw [Status.count_dec_of_ne s (hne hedge hs)]
            exact hcount' hedge hs ht)
          (by simpa [cutsShort, hsource, htarget, hwait] using hcut) hcond' hdepth'
          (fun edge hedge hs ht hcounted => by
            rw [Status.count_dec_of_ne s (hne hedge hs)] at hcounted
            exact hcall' edge hedge hs ht hcounted)
        simpa [nextLoop, hsource, arrive_ready htarget hone, hpass, haction] using
          hwalk.of_call hsource htarget hone hlast (by simpa [htarget] using htask) _

end Walk

/-! ### The counters of a new configuration -/

/-- The number of edges into a task, those from `start` apart. -/
def Config.indegree (cfg : Config) (name : GoString) : ℕ :=
  cfg.edges.countP fun edge => edge.target = name ∧ edge.source ≠ taskStart

/-- The number of them that come from one of the tasks. -/
def Config.arrived (cfg : Config) (tasks : List GoString) (name : GoString) : ℕ :=
  cfg.edges.countP fun edge =>
    edge.target = name ∧ edge.source ≠ taskStart ∧ edge.source ∈ tasks

theorem initStep_count {s s' : Status} {edge : Edge} (h : initStep s edge = some s')
    {name : GoString} (hname : IsTask name) : s'.count name = s.count name +
      if edge.target = name ∧ edge.source ≠ taskStart then 1 else 0 := by
  unfold initStep at h
  split at h
  next hskip =>
    obtain rfl : s = s' := by simpa using h
    have hnot : ¬ (edge.target = name ∧ edge.source ≠ taskStart) := by
      rintro ⟨rfl, hsource⟩
      exact hskip.elim hsource fun h => h hname
    simp [hnot]
  next hcounted =>
    obtain ⟨count, hcount, rfl⟩ := Option.map_eq_some_iff.1 h
    have hsource : edge.source ≠ taskStart := fun h => hcounted (.inl h)
    by_cases heq : edge.target = name
    · subst heq
      simp [Status.count, hcount, hsource]
    · have hne : name ≠ edge.target := fun h => heq h.symm
      simp [Status.count, heq, hne]

theorem foldlM_initStep_count {edges : List Edge} {s s' : Status}
    (h : edges.foldlM initStep s = some s') {name : GoString} (hname : IsTask name) :
    s'.count name = s.count name +
      edges.countP fun edge => edge.target = name ∧ edge.source ≠ taskStart := by
  induction edges generalizing s with
  | nil =>
      obtain rfl : s = s' := by simpa using h
      simp
  | cons edge edges ih =>
      obtain ⟨s₁, hs₁, hrest⟩ := Option.bind_eq_some_iff.1 h
      rw [ih hrest, initStep_count hs₁ hname, List.countP_cons]
      simp only [decide_eq_true_eq]
      split <;> push_cast <;> omega

/-- The counter of a task is the number of edges into it. -/
theorem Config.count_load {cfg : Config} {s : Status} (h : cfg.load = some s)
    (hnodes : cfg.nodes ≠ none) {name : GoString} (hname : IsTask name) :
    s.count name = cfg.indegree name := by
  unfold Config.load at h
  split at h
  next hnone => exact absurd hnone hnodes
  next =>
    rw [foldlM_initStep_count h hname]
    have hzero : Status.count (fun name => if (cfg.node name).isSome then some 0 else none) name =
        0 := by
      unfold Status.count
      dsimp only
      split <;> rfl
    rw [hzero, zero_add]
    rfl

/-! ### The progress of a request -/

/-- What has happened so far, by the tasks that have answered: each counter has been counted down by
the edges from them, and a task has been called if an edge from `start` leads to it or all edges
into it have arrived. -/
structure Progress (cfg : Config) (s : Status) (r : Request) : Prop where
  count : cfg.nodes ≠ none → ∀ name, IsTask name →
    s.count name = cfg.indegree name - cfg.arrived r.answeredTasks name
  called : ∀ name, name ∈ r.called ↔ IsTask name ∧
    ((r.started = true ∧ ∃ edge ∈ cfg.edges, edge.source = taskStart ∧ edge.target = name) ∨
      (0 < cfg.indegree name ∧ cfg.arrived r.answeredTasks name = cfg.indegree name))
  nodup : r.called.Nodup
  calls : ∀ edge depth request timeout, Action.call edge depth request timeout ∈ r.actions →
    cfg.AtDepth edge.target depth ∧ IsTask edge.target ∧ cfg.nodes ≠ none
  answered : ∀ call ∈ r.answered, (r.actions[call]?.bind Action.target?).isSome
  considered : ∀ edge ∈ cfg.edges, edge.source ∈ r.answeredTasks → edge ∈ r.considered
  context : r.bodies workflowExecStatus = none
  waiting : r.started = false → r.actions = []

theorem arrived_le_indegree (cfg : Config) (tasks : List GoString) (name : GoString) :
    cfg.arrived tasks name ≤ cfg.indegree name := by
  apply List.countP_mono_left
  intro edge _ h
  simp only [decide_eq_true_eq] at h ⊢
  exact ⟨h.1, h.2.1⟩

theorem countP_lt_countP {α : Type*} {p q : α → Bool} {xs : List α} (hpq : ∀ x ∈ xs, p x → q x)
    {x : α} (hx : x ∈ xs) (hq : q x) (hp : ¬ p x) : xs.countP p < xs.countP q := by
  obtain ⟨l, l', rfl⟩ := List.append_of_mem hx
  have hl : l.countP p ≤ l.countP q :=
    List.countP_mono_left fun y hy => hpq y (List.mem_append_left _ hy)
  have hl' : l'.countP p ≤ l'.countP q :=
    List.countP_mono_left fun y hy => hpq y (List.mem_append_right _ (List.mem_cons_of_mem _ hy))
  rw [List.countP_append, List.countP_append, List.countP_cons_of_neg hp,
    List.countP_cons_of_pos hq]
  omega

/-- Not all edges into a task have arrived if one of them comes from a task that has not answered. -/
theorem arrived_lt_indegree {cfg : Config} {tasks : List GoString} {edge : Edge}
    (hedge : edge ∈ cfg.edges) (hstart : edge.source ≠ taskStart) (hnot : edge.source ∉ tasks) :
    cfg.arrived tasks edge.target < cfg.indegree edge.target := by
  apply countP_lt_countP _ hedge
  · simp [hstart]
  · simp [hnot]
  · intro next _ h
    simp only [decide_eq_true_eq] at h ⊢
    exact ⟨h.1, h.2.1⟩

@[simp] theorem arrived_nil (cfg : Config) (name : GoString) : cfg.arrived [] name = 0 := by
  simp [Config.arrived]

/-- The edges from a task that answers arrive. -/
theorem arrived_concat {cfg : Config} {tasks : List GoString} {task : GoString}
    (hstart : task ≠ taskStart) (hnew : task ∉ tasks) (name : GoString) :
    cfg.arrived (tasks ++ [task]) name =
      cfg.arrived tasks name + edgeCount task name cfg.edges := by
  unfold Config.arrived edgeCount
  induction cfg.edges with
  | nil => rfl
  | cons edge edges ih =>
      rw [List.countP_cons, List.countP_cons, List.countP_cons, ih]
      by_cases htask : edge.source = task
      · subst htask
        simp [hstart, hnew]
        omega
      · simp [htask]
        omega

theorem index_eq_of_nodup_filterMap {α β : Type*} {f : α → Option β} {xs : List α}
    (h : (xs.filterMap f).Nodup) {i j : ℕ} {b : β} (hi : xs[i]?.bind f = some b)
    (hj : xs[j]?.bind f = some b) : i = j := by
  induction xs generalizing i j with
  | nil => simp at hi
  | cons x xs ih =>
      have hmem {k : ℕ} (hk : xs[k]?.bind f = some b) : b ∈ xs.filterMap f := by
        obtain ⟨a, ha, hb⟩ := Option.bind_eq_some_iff.1 hk
        exact List.mem_filterMap.2 ⟨a, List.mem_of_getElem? ha, hb⟩
      have htail : (xs.filterMap f).Nodup := h.sublist ((List.sublist_cons_self x xs).filterMap f)
      cases i with
      | zero =>
          cases j with
          | zero => rfl
          | succ j =>
              have hx : f x = some b := by simpa using hi
              rw [List.filterMap_cons_some hx] at h
              exact absurd (hmem (by simpa using hj)) (List.nodup_cons.1 h).1
      | succ i =>
          cases j with
          | zero =>
              have hx : f x = some b := by simpa using hj
              rw [List.filterMap_cons_some hx] at h
              exact absurd (hmem (by simpa using hi)) (List.nodup_cons.1 h).1
          | succ j => exact congrArg _ (ih htail (by simpa using hi) (by simpa using hj))

theorem Progress.answered_eq_nil {cfg : Config} {s : Status} {r : Request} (h : Progress cfg s r)
    (hstarted : r.started = false) : r.answered = [] := by
  refine List.eq_nil_iff_forall_not_mem.2 fun call hcall => ?_
  have := h.answered call hcall
  rw [h.waiting hstarted] at this
  simp at this

/-- The tasks that have answered stay the same when further actions are taken. -/
theorem answeredTasks_append {actions more : List Action} {answered : List ℕ}
    (h : ∀ call ∈ answered, (actions[call]?.bind Action.target?).isSome) :
    answered.filterMap (fun call => (actions ++ more)[call]?.bind Action.target?) =
      answered.filterMap fun call => actions[call]?.bind Action.target? := by
  refine List.filterMap_congr fun call hcall => ?_
  have hlt : call < actions.length := by
    by_contra hge
    have := h call hcall
    rw [List.getElem?_eq_none (Nat.not_lt.1 hge)] at this
    simp at this
  rw [List.getElem?_append_left hlt]

/-! ### One step -/

/-- The condition on what happens, for the state before it. When the body arrives, the tasks behind
the edges from `start` can be called. When a task answers, the walk over its edges is not cut
short, the tasks that wait for nothing else can be called, and the answer is not kept in place of
the counters. -/
def Unhindered (libs : Libs) (cfg : Config) (w : Status × Request) : Happening → Prop
  | .body body callError => w.2.started = false → ∀ edge ∈ cfg.startEdges, IsTask edge.target →
      Callable libs cfg (Function.update w.2.bodies taskStart (some body)) callError edge
  | .answer call _ _ body callError => ∀ edge depth request timeout,
      w.2.actions[call]? = some (.call edge depth request timeout) → call ∉ w.2.answered →
        edge.target ≠ workflowExecStatus ∧ cutsShort edge.target cfg.edges w.1 = false ∧
          ∀ next ∈ cfg.edges, next.source = edge.target → IsTask next.target →
            w.1.count next.target = 1 →
              Callable libs cfg (Function.update w.2.bodies edge.target (some body)) callError next

/-- An answer has a status code below 400. -/
def Happening.Succeeds : Happening → Prop
  | .body _ _ => True
  | .answer _ statusCode _ _ _ => statusCode < 400

instance (e : Happening) : Decidable e.Succeeds :=
  match e with
  | .body _ _ => inferInstanceAs (Decidable True)
  | .answer _ statusCode _ _ _ => inferInstanceAs (Decidable (statusCode < 400))

section Step

variable {libs : Libs} {cfg : Config} {s : Status} {r : Request}

theorem Progress.reachable (h : Progress cfg s r) {name : GoString} (hname : name ∈ r.called) :
    cfg.Reachable name := by
  obtain ⟨action, haction, htarget⟩ := List.mem_filterMap.1 hname
  cases action with
  | call edge depth request timeout =>
      obtain rfl : edge.target = name := by simpa [Action.target?] using htarget
      obtain ⟨hdepth, htask, -⟩ := h.calls _ _ _ _ haction
      exact ⟨htask, depth, hdepth⟩
  | _ => simp [Action.target?] at htarget

/-- No edge from `start` leads to a task with an edge from a task. -/
theorem Config.Plain.indegree_eq_zero (hcfg : cfg.Plain) {edge : Edge} (hedge : edge ∈ cfg.edges)
    (hsource : edge.source = taskStart) (htask : IsTask edge.target) :
    cfg.indegree edge.target = 0 := by
  have hsplit : cfg.indegree edge.target +
      cfg.edges.countP (fun e => e.target = edge.target ∧ e.source = taskStart) =
        cfg.edges.countP (·.target = edge.target) := by
    unfold Config.indegree
    induction cfg.edges with
    | nil => rfl
    | cons e edges ih =>
        rw [List.countP_cons, List.countP_cons, List.countP_cons, ← ih]
        by_cases ht : e.target = edge.target <;> by_cases hs : e.source = taskStart <;>
          simp [ht, hs] <;> omega
  have hpos : 0 < cfg.edges.countP (fun e => e.target = edge.target ∧ e.source = taskStart) :=
    List.countP_pos_iff.2 ⟨edge, hedge, by simp [hsource]⟩
  rw [hcfg.entry edge hedge hsource htask] at hsplit
  omega

theorem nodup_targets {edges : List Edge} {f : Edge → Option GoString}
    (hf : ∀ edge ∈ edges, f edge = if IsTask edge.target then some edge.target else none)
    (hone : ∀ edge ∈ edges, IsTask edge.target → edges.countP (·.target = edge.target) ≤ 1) :
    (edges.filterMap f).Nodup := by
  induction edges with
  | nil => exact List.nodup_nil
  | cons next edges ih =>
      have hrest := ih (fun edge hedge => hf edge (List.mem_cons_of_mem _ hedge))
        fun edge hedge htask => by
          have := hone edge (List.mem_cons_of_mem _ hedge) htask
          rw [List.countP_cons] at this
          omega
      by_cases htask : IsTask next.target
      · have hnext : f next = some next.target := by simp [hf next List.mem_cons_self, htask]
        rw [List.filterMap_cons_some hnext]
        refine List.nodup_cons.2 ⟨fun hmem => ?_, hrest⟩
        obtain ⟨edge, hedge, hsome⟩ := List.mem_filterMap.1 hmem
        rw [hf edge (List.mem_cons_of_mem _ hedge)] at hsome
        have heq : edge.target = next.target := by simpa using (Option.ite_none_right_eq_some.1 hsome).2
        have hpos : 0 < edges.countP (·.target = next.target) :=
          List.countP_pos_iff.2 ⟨edge, hedge, by simp [heq]⟩
        have hle := hone next List.mem_cons_self htask
        rw [List.countP_cons_of_pos (by simp)] at hle
        omega
      · have hnext : f next = none := by simp [hf next List.mem_cons_self, htask]
        rw [List.filterMap_cons_none hnext]
        exact hrest

/-- The body arrives: the tasks behind the edges from `start` are called. -/
theorem Progress.body (hcfg : cfg.Plain) (h : Progress cfg s r) (hstarted : r.started = false)
    {body : GoString} {callError : GoString → Option GoString}
    (hcall : ∀ edge ∈ cfg.startEdges, IsTask edge.target →
      Callable libs cfg (Function.update r.bodies taskStart (some body)) callError edge) :
    Progress cfg s (onHttpRequestBody libs cfg r body callError) := by
  have hanswered := h.answered_eq_nil hstarted
  have hmem {edge : Edge} (hedge : edge ∈ cfg.startEdges) :
      edge ∈ cfg.edges ∧ edge.source = taskStart := by
    simpa [Config.startEdges] using hedge
  have hdepth {edge : Edge} (hedge : edge ∈ cfg.startEdges) : cfg.AtDepth edge.target 1 :=
    .start (hmem hedge).1 (hmem hedge).2
  let visit : Visit := ⟨[], body, 1, Function.update r.bodies taskStart (some body), callError⟩
  have hstart {edge : Edge} (hedge : edge ∈ cfg.startEdges) :
      (startAction libs cfg visit edge).target? =
        if IsTask edge.target then some edge.target else none := by
    obtain ⟨action, haction, htarget⟩ := @exists_recursive libs cfg visit edge
      (hcfg.depth _ _ (hdepth hedge)) fun htask => hcall edge hedge htask
    simp only [startAction, haction, htarget]
  have hcalled : (onHttpRequestBody libs cfg r body callError).called =
      cfg.startEdges.filterMap fun edge => (startAction libs cfg visit edge).target? := by
    simp only [Request.called, onHttpRequestBody, List.filterMap_map]
    rfl
  have hnone : (onHttpRequestBody libs cfg r body callError).answeredTasks = [] := by
    simp [Request.answeredTasks, onHttpRequestBody, hanswered]
  have hold : r.answeredTasks = [] := by simp [Request.answeredTasks, hanswered]
  refine ⟨?_, fun name => ?_, ?_, ?_, ?_, ?_, ?_, ?_⟩
  · have := h.count
    rwa [hold, ← hnone] at this
  · rw [hcalled, hnone, arrived_nil, List.mem_filterMap]
    constructor
    · rintro ⟨edge, hedge, hsome⟩
      rw [hstart hedge] at hsome
      obtain ⟨htask, rfl⟩ := by simpa using Option.ite_none_right_eq_some.1 hsome
      exact ⟨htask, .inl ⟨rfl, edge, (hmem hedge).1, (hmem hedge).2, rfl⟩⟩
    · rintro ⟨htask, ⟨-, edge, hedge, hsource, rfl⟩ | ⟨hpos, hzero⟩⟩
      · have hedge' : edge ∈ cfg.startEdges := by simp [Config.startEdges, hedge, hsource]
        exact ⟨edge, hedge', by simp [hstart hedge', htask]⟩
      · omega
  · rw [hcalled]
    refine nodup_targets (fun edge hedge => hstart hedge) fun edge hedge htask => ?_
    rw [← hcfg.entry edge (hmem hedge).1 (hmem hedge).2 htask]
    exact List.filter_sublist.countP_le
  · intro edge depth request timeout hcalls
    obtain ⟨start, hedge, heq⟩ := List.mem_map.1 hcalls
    unfold startAction at heq
    split at heq
    next action haction =>
      subst heq
      obtain ⟨rfl, rfl, htask, hnodes⟩ := recursive_eq_call haction
      exact ⟨hdepth hedge, htask, hnodes⟩
    next => cases heq
  · simp [onHttpRequestBody, hanswered]
  · simp [hnone]
  · change (if cfg.startEdges = [] then r.bodies else _) workflowExecStatus = none
    split
    · exact h.context
    · rw [Function.update_of_ne (by decide)]
      exact h.context
  · simp [onHttpRequestBody]

/-- The request after the walk over the edges from a task that has answered. -/
def Request.afterWalk (r : Request) (call : ℕ) (bodies : Bodies) (walk : Walk) : Request :=
  { r with
    answered := r.answered ++ [call]
    bodies
    actions := r.actions ++ walk.actions
    considered := r.considered ++ walk.considered
    counted := r.counted ++ walk.counted }

theorem onAnswer_eq {call depth statusCode : ℕ} {edge : Edge} (hcode : statusCode < 400)
    (hcontext : r.bodies workflowExecStatus = none) (hname : edge.target ≠ workflowExecStatus)
    (headers : List (GoString × GoString)) (body : GoString)
    (callError : GoString → Option GoString) :
    let bodies : Bodies := Function.update r.bodies edge.target (some body)
    let walk := nextLoop libs cfg ⟨nextHeaders headers, body, depth + 1, bodies, callError⟩
      edge.target cfg.edges s
    onAnswer libs cfg s r call edge depth statusCode headers body callError =
      (walk.status, r.afterWalk call bodies walk) := by
  have hnone : Function.update r.bodies edge.target (some body) workflowExecStatus = none := by
    rw [Function.update_of_ne hname.symm, hcontext]
  simp only [onAnswer, if_neg (Nat.not_le.2 hcode), hnone, Option.isSome_none]
  rfl

theorem isSome_of_append {actions : List Action} (more : List Action) {call : ℕ}
    (h : (actions[call]?.bind Action.target?).isSome) :
    ((actions ++ more)[call]?.bind Action.target?).isSome := by
  have hlt : call < actions.length := by
    by_contra hge
    rw [List.getElem?_eq_none (Nat.not_lt.1 hge)] at h
    simp at h
  rwa [List.getElem?_append_left hlt]

theorem answeredTasks_afterWalk {call : ℕ} {task : GoString}
    (hanswered : ∀ call ∈ r.answered, (r.actions[call]?.bind Action.target?).isSome)
    (hat : r.actions[call]?.bind Action.target? = some task) (bodies : Bodies) (walk : Walk) :
    (r.afterWalk call bodies walk).answeredTasks = r.answeredTasks ++ [task] := by
  have hall : ∀ c ∈ r.answered ++ [call], (r.actions[c]?.bind Action.target?).isSome := by
    intro c hc
    rcases List.mem_append.1 hc with hc | hc
    · exact hanswered c hc
    · rw [List.mem_singleton.1 hc, hat]
      rfl
  have hsame := @answeredTasks_append r.actions walk.actions _ hall
  rw [List.filterMap_append (l := r.answered)] at hsame
  simpa [Request.answeredTasks, Request.afterWalk, hat] using hsame

/-- A task answers: the edges from it arrive, and the tasks that waited for them only are called. -/
theorem Progress.answer (hcfg : cfg.Plain) (h : Progress cfg s r) {call depth timeout : ℕ}
    {edge : Edge} {request : Task} (hat : r.actions[call]? = some (.call edge depth request timeout))
    (hnew : call ∉ r.answered) {statusCode : ℕ} (hcode : statusCode < 400)
    {headers : List (GoString × GoString)} {body : GoString}
    {callError : GoString → Option GoString} (hname : edge.target ≠ workflowExecStatus)
    (hcut : cutsShort edge.target cfg.edges s = false)
    (hcall : ∀ next ∈ cfg.edges, next.source = edge.target → IsTask next.target →
      s.count next.target = 1 →
        Callable libs cfg (Function.update r.bodies edge.target (some body)) callError next) :
    Progress cfg (onAnswer libs cfg s r call edge depth statusCode headers body callError).1
      (onAnswer libs cfg s r call edge depth statusCode headers body callError).2 := by
  obtain ⟨hdepth, htask, hnodes⟩ := h.calls _ _ _ _ (List.mem_of_getElem? hat)
  have hstart : edge.target ≠ taskStart := hcfg.ne_start ⟨htask, depth, hdepth⟩
  have htarget : r.actions[call]?.bind Action.target? = some edge.target := by simp [hat, Action.target?]
  have hfirst : edge.target ∉ r.answeredTasks := by
    intro hmem
    obtain ⟨other, hother, heq⟩ := List.mem_filterMap.1 hmem
    exact hnew (index_eq_of_nodup_filterMap h.nodup heq htarget ▸ hother)
  rw [onAnswer_eq hcode h.context hname]
  dsimp only
  set visit : Visit := ⟨nextHeaders headers, body, depth + 1,
    Function.update r.bodies edge.target (some body), callError⟩
  set walk := nextLoop libs cfg visit edge.target cfg.edges s
  have htasks := answeredTasks_afterWalk h.answered htarget visit.bodies walk
  have hcounts (name : GoString) : cfg.arrived (r.answeredTasks ++ [edge.target]) name =
      cfg.arrived r.answeredTasks name + edgeCount edge.target name cfg.edges :=
    arrived_concat hstart hfirst name
  have hroom (name : GoString) :
      cfg.arrived r.answeredTasks name + edgeCount edge.target name cfg.edges ≤
        cfg.indegree name := by
    rw [← hcounts]
    exact arrived_le_indegree cfg _ name
  have hwalk : Followed edge.target cfg.edges s walk := by
    refine followed_nextLoop (fun next _ _ ht => ?_) hcut hcfg.unconditional (fun next hnext hs => ?_)
      hcall
    · have := hroom next.target
      rw [h.count hnodes _ ht]
      omega
    · exact hcfg.depth _ _ (.next (hs ▸ hdepth) (hs ▸ htask) hnext)
  -- a task behind one of the edges has not been called before
  have hfresh {name : GoString} (hpos : 0 < edgeCount edge.target name cfg.edges) :
      name ∉ r.called := by
    have := hroom name
    rw [h.called]
    rintro ⟨hname, ⟨-, first, hedge, hsource, rfl⟩ | ⟨-, hall⟩⟩
    · have := hcfg.indegree_eq_zero hedge hsource hname
      omega
    · omega
  refine ⟨fun _ name hname => ?_, fun name => ?_, ?_, ?_, ?_, ?_, ?_, ?_⟩
  · rw [htasks, hcounts, hwalk.count name hname, h.count hnodes name hname]
    omega
  · rw [htasks, hcounts]
    simp only [Request.called, Request.afterWalk, List.filterMap_append, List.mem_append]
    change name ∈ r.called ∨ _ ↔ _
    rw [h.called, hwalk.mem_called, ← and_or_left]
    refine and_congr_right fun hname => ?_
    have hle := hroom name
    have hcount := h.count hnodes name hname
    by_cases hpos : 0 < edgeCount edge.target name cfg.edges
    · have hnot := fun hin => hfresh hpos ((h.called name).2 ⟨hname, hin⟩)
      rw [or_iff_right hnot]
      have hnotStart := fun hin => hnot (.inl hin)
      rw [or_iff_right hnotStart]
      omega
    · have hzero : edgeCount edge.target name cfg.edges = 0 := by omega
      simp [hzero]
  · simp only [Request.called, Request.afterWalk, List.filterMap_append]
    refine List.Nodup.append h.nodup hwalk.nodup fun name hold hmem => ?_
    exact hfresh ((hwalk.mem_called name).1 hmem).2.1 hold
  · intro edge' depth' request' timeout' hmem
    rcases List.mem_append.1 hmem with hmem | hmem
    · exact h.calls _ _ _ _ hmem
    · obtain ⟨hedge, hsource, rfl, hrest⟩ := of_call_mem_nextLoop hmem
      exact ⟨.next (hsource ▸ hdepth) (hsource ▸ htask) hedge, hrest⟩
  · intro other hother
    refine isSome_of_append walk.actions ?_
    rcases List.mem_append.1 hother with hother | hother
    · exact h.answered other hother
    · rw [List.mem_singleton.1 hother, htarget]
      rfl
  · intro next hnext hsource
    rw [htasks] at hsource
    change next ∈ r.considered ++ walk.considered
    rcases List.mem_append.1 hsource with hsource | hsource
    · exact List.mem_append_left _ (h.considered next hnext hsource)
    · rw [hwalk.considered]
      exact List.mem_append_right _ (List.mem_filter.2 ⟨hnext, by simpa using hsource⟩)
  · change Function.update r.bodies edge.target (some body) workflowExecStatus = none
    rw [Function.update_of_ne hname.symm]
    exact h.context
  · intro hstarted
    have := h.waiting hstarted
    rw [this] at hat
    simp at hat

end Step

/-! ### Runs -/

section Runs

variable (libs : Libs) (cfg : Config)

def handleOne (w : Status × Request) (e : Happening) : Status × Request := handle libs cfg w.1 w.2 e

/-- A request is served when the configuration has just been loaded. -/
def serve (s : Status) (events : List Happening) : Status × Request :=
  events.foldl (handleOne libs cfg) (s, Request.fresh ())

variable {libs cfg} {s : Status} {r : Request}

theorem progress_fresh (hload : cfg.load = some s) : Progress cfg s (Request.fresh ()) where
  count hnodes name hname := by
    rw [Config.count_load hload hnodes hname]
    simp [Request.fresh, Request.answeredTasks]
  called name := by
    simp [Request.fresh, Request.answeredTasks, Request.called]
    omega
  nodup := by simp [Request.fresh, Request.called]
  calls := by simp [Request.fresh]
  answered := by simp [Request.fresh]
  considered := by simp [Request.fresh, Request.answeredTasks]
  context := rfl
  waiting _ := rfl

theorem Progress.handleOne (hcfg : cfg.Plain) {w : Status × Request} (h : Progress cfg w.1 w.2)
    {e : Happening} (hcode : e.Succeeds) (hc : Unhindered libs cfg w e) :
    Progress cfg (handleOne libs cfg w e).1 (handleOne libs cfg w e).2 := by
  cases e with
  | body body callError =>
      unfold ApiWorkflow.handleOne handle
      dsimp only
      split
      next => exact h
      next hstarted =>
        have hstarted := Bool.eq_false_of_not_eq_true hstarted
        exact h.body hcfg hstarted (hc hstarted)
  | answer call statusCode headers body callError =>
      unfold ApiWorkflow.handleOne handle
      dsimp only
      split
      next edge depth request timeout hat =>
        split
        next => exact h
        next hnew =>
          obtain ⟨hname, hcut, hcall⟩ := hc edge depth request timeout hat hnew
          exact h.answer hcfg hat hnew hcode hname hcut hcall
      next => exact h

/-- A task that was called has only edges from `start` and from tasks that have answered. -/
theorem Progress.answered_of_called (hcfg : cfg.Plain) (h : Progress cfg s r) {edge : Edge}
    (hedge : edge ∈ cfg.edges) (hcalled : edge.target ∈ r.called) :
    edge.source = taskStart ∨ edge.source ∈ r.answeredTasks := by
  by_contra hnot
  obtain ⟨hstart, hwaits⟩ := not_or.1 hnot
  have hlt := arrived_lt_indegree hedge hstart hwaits
  obtain ⟨htask, ⟨-, first, hfirst, hsource, heq⟩ | ⟨-, hall⟩⟩ := (h.called _).1 hcalled
  · have := hcfg.indegree_eq_zero hfirst hsource (heq ▸ htask)
    rw [heq] at this
    omega
  · omega

theorem Progress.answered_of_idle (hidle : r.Idle) {name : GoString} (hname : name ∈ r.called) :
    name ∈ r.answeredTasks := by
  obtain ⟨action, haction, htarget⟩ := List.mem_filterMap.1 hname
  obtain ⟨call, hcall⟩ := List.getElem?_of_mem haction
  have hat : r.actions[call]?.bind Action.target? = some name := by simp [hcall, htarget]
  exact List.mem_filterMap.2 ⟨call, hidle call (by simp [hat]), hat⟩

/-- When every call has been answered, a task that was not called has one before it that was not
called either. -/
theorem Progress.uncalled_before (hcfg : cfg.Plain) (hfed : cfg.Fed) (h : Progress cfg s r)
    (hstarted : r.started = true) (hidle : r.Idle) {name : GoString} (hname : cfg.Reachable name)
    (hnot : name ∉ r.called) :
    ∃ edge ∈ cfg.edges, edge.target = name ∧ cfg.Reachable edge.source ∧
      edge.source ∉ r.called := by
  obtain ⟨htask, depth, hdepth⟩ := hname
  rw [h.called] at hnot
  have hall : ¬ (0 < cfg.indegree name ∧ cfg.arrived r.answeredTasks name = cfg.indegree name) :=
    fun hall => hnot ⟨htask, .inr hall⟩
  have hpos : 0 < cfg.indegree name := by
    cases hdepth with
    | start hedge hsource => exact absurd ⟨htask, .inl ⟨hstarted, _, hedge, hsource, rfl⟩⟩ hnot
    | next hbefore hsource hedge =>
        have := hcfg.ne_start ⟨hsource, _, hbefore⟩
        exact List.countP_pos_iff.2 ⟨_, hedge, by simpa using this⟩
  -- an edge into the task has not arrived
  obtain ⟨edge, hedge, htarget, hstart, hwaits⟩ : ∃ edge ∈ cfg.edges, edge.target = name ∧
      edge.source ≠ taskStart ∧ edge.source ∉ r.answeredTasks := by
    by_contra hnone
    push Not at hnone
    refine hall ⟨hpos, le_antisymm (arrived_le_indegree cfg _ _) ?_⟩
    apply List.countP_mono_left
    intro edge hedge hin
    simp only [decide_eq_true_eq] at hin ⊢
    exact ⟨hin.1, hin.2, hnone edge hedge hin.1 hin.2⟩
  subst htarget
  have hbefore := (hfed edge hedge ⟨htask, depth, hdepth⟩).resolve_left hstart
  exact ⟨edge, hedge, rfl, hbefore, fun hcalled => hwaits (Progress.answered_of_idle hidle hcalled)⟩

/-- When every call has been answered, every task that can be reached has been called. -/
theorem Progress.called_of_idle (hcfg : cfg.Plain) (hfed : cfg.Fed) (h : Progress cfg s r)
    (hstarted : r.started = true) (hidle : r.Idle) {name : GoString} (hname : cfg.Reachable name) :
    name ∈ r.called := by
  by_contra hnot
  -- tasks that were not called stand at any distance before this one
  have hchain (k : ℕ) : ∃ before, cfg.Reachable before ∧ before ∉ r.called ∧
      ∀ depth, cfg.AtDepth before depth → cfg.AtDepth name (depth + k) := by
    induction k with
    | zero => exact ⟨name, hname, hnot, fun _ hdepth => hdepth⟩
    | succ k ih =>
        obtain ⟨before, hbefore, huncalled, hpath⟩ := ih
        obtain ⟨edge, hedge, rfl, hsource, hfirst⟩ :=
          h.uncalled_before hcfg hfed hstarted hidle hbefore huncalled
        refine ⟨edge.source, hsource, hfirst, fun depth hdepth => ?_⟩
        have := hpath _ (.next hdepth hsource.1 hedge)
        rwa [Nat.add_assoc, Nat.add_comm 1] at this
  obtain ⟨before, ⟨-, depth, hdepth⟩, -, hpath⟩ := hchain cfg.maxDepth
  have hle := hcfg.depth _ _ (hpath depth hdepth)
  have := hdepth.pos
  omega

theorem Progress.length_called_le (h : Progress cfg s r) : r.called.length ≤ cfg.edges.length := by
  have hsub : r.called ⊆ cfg.edges.map Edge.target := by
    intro name hname
    obtain ⟨-, depth, hdepth⟩ := h.reachable hname
    cases hdepth with
    | start hedge _ => exact List.mem_map_of_mem hedge
    | next _ _ hedge => exact List.mem_map_of_mem hedge
  simpa using (List.subperm_of_subset h.nodup hsub).length_le

/-- Whatever the order of the answers, if none of them is cut short: no task is called twice, and
none before all tasks in front of it have answered; every edge from a task that has answered was
looked at; and when every call has been answered, every task that can be reached was called. -/
theorem serve_executes (hcfg : cfg.Plain) (hfed : cfg.Fed) (hload : cfg.load = some s)
    {events : List Happening} (hcodes : ∀ e ∈ events, e.Succeeds)
    (halong : Run.Along (handleOne libs cfg) (Unhindered libs cfg) (s, Request.fresh ()) events) :
    let r := (serve libs cfg s events).2
    r.called.Nodup ∧ r.called.length ≤ cfg.edges.length ∧
      (∀ edge ∈ cfg.edges, edge.target ∈ r.called →
        edge.source = taskStart ∨ edge.source ∈ r.answeredTasks) ∧
      (∀ edge ∈ cfg.edges, edge.source ∈ r.answeredTasks → edge ∈ r.considered) ∧
      (r.started = true → r.Idle → ∀ task, cfg.Reachable task → task ∈ r.called) := by
  have h : Progress cfg (serve libs cfg s events).1 (serve libs cfg s events).2 :=
    Run.foldl_of_along (P := fun w => Progress cfg w.1 w.2)
      (fun e he w hw hc => hw.handleOne hcfg (hcodes e he) hc) (progress_fresh hload) halong
  exact ⟨h.nodup, h.length_called_le, fun edge hedge hcalled => h.answered_of_called hcfg hedge hcalled,
    h.considered, fun hstarted hidle task htask => h.called_of_idle hcfg hfed hstarted hidle htask⟩

end Runs

/-! ### Samples -/

namespace Sample

def libs : Libs where
  raw := id
  get _ _ := none
  setRaw tmpl _ _ := .ok tmpl
  conditional _ _ := .ok true

def node (name : String) : Node where
  name := bytes name
  serviceName := bytes name ++ bytes ".static"
  servicePort := 80
  serviceDomain := []
  servicePath := bytes "/"
  serviceMethod := bytes "GET"
  serviceHeaders := []
  serviceBodyTmpl := []
  serviceBodyReplaceKeys := []

def edge (source target : String) : Edge := ⟨bytes source, bytes target, []⟩

def config (nodes : List String) (edges : List Edge) : Config := ⟨edges, nodes.map node, 5000, 100⟩

def status (cfg : Config) : Status := cfg.load.getD fun _ => none

def body : Happening := .body [] fun _ => none

def answer (call : ℕ) : Happening := .answer call 200 [] [] fun _ => none

/-- Two tasks wait for one, and one for both of them. -/
def diamond : Config := config ["A", "B", "C", "D"]
  [edge "start" "A", edge "A" "B", edge "A" "C", edge "B" "D", edge "C" "D", edge "D" "end"]

def diamondRank (name : GoString) : ℕ :=
  if name = bytes "start" then 0 else if name = bytes "A" then 1
  else if name = bytes "B" ∨ name = bytes "C" then 2 else if name = bytes "D" then 3 else 4

/-- One task waits for two others, and an edge from one of those comes after the one to it. -/
def joinFirst : Config := config ["A", "B", "C", "J"]
  [edge "start" "A", edge "start" "C", edge "A" "J", edge "C" "J", edge "A" "B"]

def joinFirstRank (name : GoString) : ℕ :=
  if name = bytes "start" then 0 else if name = bytes "A" ∨ name = bytes "C" then 1 else 2

theorem plain_of_rank {cfg : Config} {rank : GoString → ℕ}
    (hrank : ∀ edge ∈ cfg.edges, rank edge.source < rank edge.target)
    (hbound : ∀ edge ∈ cfg.edges, rank edge.target ≤ cfg.maxDepth)
    (hcond : ∀ edge ∈ cfg.edges, edge.conditional = [])
    (hentry : ∀ edge ∈ cfg.edges, edge.source = taskStart → IsTask edge.target →
      cfg.edges.countP (·.target = edge.target) = 1) : cfg.Plain := by
  refine ⟨Config.acyclic_of_rank hrank, hcond, hentry, fun name depth hdepth => ?_⟩
  refine (hdepth.le_rank hrank).trans ?_
  cases hdepth with
  | start hedge _ => exact hbound _ hedge
  | next _ _ hedge => exact hbound _ hedge

theorem plain_diamond : diamond.Plain :=
  @plain_of_rank diamond diamondRank (by decide) (by decide) (by decide) (by decide)

theorem plain_joinFirst : joinFirst.Plain :=
  @plain_of_rank joinFirst joinFirstRank (by decide) (by decide) (by decide) (by decide)

theorem reachable_first {cfg : Config} {target : String}
    (hedge : edge "start" target ∈ cfg.edges) (htask : IsTask (bytes target)) :
    cfg.Reachable (bytes target) :=
  ⟨htask, 1, Config.AtDepth.start hedge rfl⟩

theorem Reachable.next {cfg : Config} {source target : String}
    (h : cfg.Reachable (bytes source)) (hedge : edge source target ∈ cfg.edges)
    (htask : IsTask (bytes target)) : cfg.Reachable (bytes target) := by
  obtain ⟨hsource, depth, hdepth⟩ := h
  exact ⟨htask, depth + 1, @Config.AtDepth.next cfg (edge source target) depth hdepth hsource hedge⟩

theorem fed_diamond : diamond.Fed := by
  have hA : diamond.Reachable (bytes "A") := reachable_first (by decide) (by decide)
  have hB : diamond.Reachable (bytes "B") := Reachable.next hA (by decide) (by decide)
  have hC : diamond.Reachable (bytes "C") := Reachable.next hA (by decide) (by decide)
  have hD : diamond.Reachable (bytes "D") := Reachable.next hB (by decide) (by decide)
  have hall : ∀ next ∈ diamond.edges,
      next.source ∈ [taskStart, bytes "A", bytes "B", bytes "C", bytes "D"] := by decide
  intro next hnext _
  have hsources := hall next hnext
  simp only [List.mem_cons, List.not_mem_nil, or_false] at hsources
  rcases hsources with h | h | h | h | h
  · exact .inl h
  all_goals
    rw [h]
    exact .inr (by assumption)

theorem fed_joinFirst : joinFirst.Fed := by
  have hA : joinFirst.Reachable (bytes "A") := reachable_first (by decide) (by decide)
  have hC : joinFirst.Reachable (bytes "C") := reachable_first (by decide) (by decide)
  have hall : ∀ next ∈ joinFirst.edges, next.source ∈ [taskStart, bytes "A", bytes "C"] := by
    decide
  intro next hnext _
  have hsources := hall next hnext
  simp only [List.mem_cons, List.not_mem_nil, or_false] at hsources
  rcases hsources with h | h | h
  · exact .inl h
  all_goals
    rw [h]
    exact .inr (by assumption)

theorem load_eq {cfg : Config} (h : cfg.load.isSome) : cfg.load = some (status cfg) := by
  obtain ⟨s, hs⟩ := Option.isSome_iff_exists.1 h
  rw [status, hs]
  rfl

/-- The tasks of the samples can be called whatever the bodies are. -/
theorem callable {cfg : Config} {next : Edge} (hnode : (cfg.node next.target).isSome)
    (hkeys : ∀ node ∈ cfg.node next.target, node.serviceBodyReplaceKeys = []) (bodies : Bodies) :
    Callable libs cfg bodies (fun _ => none) next := by
  obtain ⟨node, hnode⟩ := Option.isSome_iff_exists.1 hnode
  refine ⟨?_, rfl⟩
  simp [wrapperTask, hnode, hkeys node hnode, wrapperData]

theorem callable_diamond (next : Edge) (hnext : next ∈ diamond.edges) (htask : IsTask next.target)
    (bodies : Bodies) : Callable libs diamond bodies (fun _ => none) next := by
  refine callable ?_ ?_ bodies
  · revert next
    decide
  · intro node hnode
    have hin : node ∈ (diamond.nodes.getD []) := by
      have := List.mem_of_find?_eq_some hnode
      simpa using this
    obtain ⟨name, -, rfl⟩ := List.mem_map.1 hin
    rfl

def Action.edge? : Action → Option Edge
  | .call edge _ _ _ => some edge
  | _ => none

theorem unhindered_answer {w : Status × Request} {call : ℕ} {first : Edge}
    (hat : w.2.actions[call]?.bind Action.edge? = some first)
    (hname : first.target ≠ workflowExecStatus)
    (hcut : cutsShort first.target diamond.edges w.1 = false) :
    Unhindered libs diamond w (answer call) := by
  intro edge depth request timeout hcall _
  rw [hcall] at hat
  obtain rfl : edge = first := by simpa [Action.edge?] using hat
  exact ⟨hname, hcut, fun next hnext _ htask _ => callable_diamond next hnext htask _⟩

/-- The two tasks in the middle answer in the other order. -/
def events : List Happening := [body, answer 0, answer 2, answer 1, answer 3]

theorem along_diamond : Run.Along (handleOne libs diamond) (Unhindered libs diamond)
    (status diamond, Request.fresh ()) events := by
  refine ⟨fun _ next hnext htask => ?_, ?_⟩
  · exact callable_diamond next (List.mem_of_mem_filter hnext) htask _
  · exact ⟨@unhindered_answer _ 0 (edge "start" "A") (by decide) (by decide) (by decide),
      @unhindered_answer _ 2 (edge "A" "C") (by decide) (by decide) (by decide),
      @unhindered_answer _ 1 (edge "A" "B") (by decide) (by decide) (by decide),
      @unhindered_answer _ 3 (edge "B" "D") (by decide) (by decide) (by decide), True.intro⟩

theorem idle_of_lt {r : Request}
    (h : ∀ call < r.actions.length, (r.actions[call]?.bind Action.target?).isSome →
      call ∈ r.answered) : r.Idle := by
  intro call hcall
  refine h call ?_ hcall
  by_contra hge
  rw [List.getElem?_eq_none (Nat.not_lt.1 hge)] at hcall
  simp at hcall

end Sample

/-- All tasks of the sample are called when all have answered, and the last one when both tasks
before it have. -/
theorem serve_executes_diamond :
    (serve Sample.libs Sample.diamond (Sample.status Sample.diamond) Sample.events).2.called.Nodup ∧
      ∀ task, Sample.diamond.Reachable task →
        task ∈ (serve Sample.libs Sample.diamond (Sample.status Sample.diamond)
          Sample.events).2.called := by
  have h := serve_executes Sample.plain_diamond Sample.fed_diamond (Sample.load_eq (by decide))
    (by decide) Sample.along_diamond
  exact ⟨h.1, h.2.2.2.2 (by decide) (Sample.idle_of_lt (by decide))⟩

/-- A task that still waits ends the walk over the edges, and the task behind a later edge is never
called although every call has been answered. -/
theorem edge_lost :
    Sample.joinFirst.Plain ∧ Sample.joinFirst.Fed ∧
      Sample.joinFirst.load = some (Sample.status Sample.joinFirst) ∧
      let events := [Sample.body, Sample.answer 0, Sample.answer 1, Sample.answer 2]
      let r := (serve Sample.libs Sample.joinFirst (Sample.status Sample.joinFirst) events).2
      (∀ e ∈ events, e.Succeeds) ∧ r.started = true ∧ r.Idle ∧
        r.called = [bytes "A", bytes "C", bytes "J"] ∧
        Sample.joinFirst.Reachable (bytes "B") ∧ bytes "B" ∉ r.called ∧
        Sample.edge "A" "B" ∈ Sample.joinFirst.edges ∧ bytes "A" ∈ r.answeredTasks ∧
        Sample.edge "A" "B" ∉ r.considered := by
  refine ⟨Sample.plain_joinFirst, Sample.fed_joinFirst, Sample.load_eq (by decide), by decide,
    by decide, Sample.idle_of_lt (by decide), by decide, ?_, by decide, by decide, by decide, by decide⟩
  have hA : Sample.joinFirst.Reachable (bytes "A") :=
    Sample.reachable_first (by decide) (by decide)
  exact Sample.Reachable.next hA (by decide) (by decide)

end Higress.ApiWorkflow
