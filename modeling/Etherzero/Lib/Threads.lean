import Mathlib

/-!
# Threads that take atomic steps in any order

A configuration holds a shared memory, the threads still running, and the values output so far. In one step any
running thread takes one atomic step: it changes the memory, goes on as a new thread or ends, and may output one
value. The runs from a configuration are all the interleavings of its threads' steps.

When each step leaves a thread of lower rank, or none, every run ends; and a run can stop only when no thread is
left, since any running thread can take its step. Where every run ends, some run stops.
-/

namespace Etherzero.Threads

/-- The shared memory, the running threads and the output. -/
structure Config (σ τ ο : Type) where
  mem : σ
  threads : List τ
  out : List ο

variable {σ τ ο : Type} (run : σ → τ → σ × Option τ × Option ο)

/-- The configuration after the thread `t`, between the running threads `l₁` and `l₂`, takes its step: it is
replaced by the thread it goes on as, if any. -/
def Config.after (mem : σ) (l₁ : List τ) (t : τ) (l₂ : List τ) (out : List ο) : Config σ τ ο :=
  ⟨(run mem t).1, l₁ ++ (run mem t).2.1.toList ++ l₂, out ++ (run mem t).2.2.toList⟩

/-- One step of any one running thread. -/
inductive Step : Config σ τ ο → Config σ τ ο → Prop
  | pick (mem : σ) (l₁ : List τ) (t : τ) (l₂ : List τ) (out : List ο) :
      Step ⟨mem, l₁ ++ t :: l₂, out⟩ (Config.after run mem l₁ t l₂ out)

/-- The configurations that the runs from `c₀` reach. -/
def Reach (c₀ : Config σ τ ο) (c : Config σ τ ο) : Prop := Relation.ReflTransGen (Step run) c₀ c

variable {run}

/-- What a step does, up to the order of the threads: one running thread `t` takes its step, and the other threads
`rest` are left as they are. -/
theorem Step.cases {c c' : Config σ τ ο} (h : Step run c c') :
    ∃ t rest, c.threads.Perm (t :: rest) ∧ c'.mem = (run c.mem t).1 ∧
      c'.threads.Perm ((run c.mem t).2.1.toList ++ rest) ∧ c'.out = c.out ++ (run c.mem t).2.2.toList := by
  cases h with
  | pick mem l₁ t l₂ out =>
    refine ⟨t, l₁ ++ l₂, List.perm_middle, rfl, ?_, rfl⟩
    simp only [Config.after, List.append_assoc]
    exact List.perm_append_comm_assoc _ _ _

/-- Any running thread can take its step. -/
theorem Step.exists_of_ne_nil {c : Config σ τ ο} (h : c.threads ≠ []) : ∃ c', Step run c c' := by
  obtain ⟨mem, threads, out⟩ := c
  obtain ⟨t, l₂, rfl⟩ := List.exists_cons_of_ne_nil h
  exact ⟨_, Step.pick mem [] t l₂ out⟩

/-- With no thread left, no step can be taken. -/
theorem Step.threads_ne_nil {c c' : Config σ τ ο} (h : Step run c c') : c.threads ≠ [] := by
  obtain ⟨t, rest, hperm, -⟩ := h.cases
  intro hnil
  rw [hnil] at hperm
  exact List.cons_ne_nil t rest hperm.symm.eq_nil

/-- Output is only added to. -/
theorem Step.out_prefix {c c' : Config σ τ ο} (h : Step run c c') : c.out <+: c'.out := by
  obtain ⟨t, rest, -, -, -, hout⟩ := h.cases
  rw [hout]
  exact List.prefix_append _ _

/-- Output is only added to, along a run. -/
theorem reach_out_prefix {c c' : Config σ τ ο} (h : Relation.ReflTransGen (Step run) c c') : c.out <+: c'.out := by
  induction h with
  | refl => exact List.prefix_refl _
  | tail _ hs ih => exact ih.trans hs.out_prefix

section Rank

variable (rank : τ → Nat)

/-- The work left: for each running thread, one more than its rank. -/
def Config.work (c : Config σ τ ο) : Nat := (c.threads.map (rank · + 1)).sum

/-- A step that leaves the thread of lower rank, or none, lowers the work left. -/
theorem Step.work_lt (hrank : ∀ mem t t', (run mem t).2.1 = some t' → rank t' < rank t)
    {c c' : Config σ τ ο} (h : Step run c c') : c'.work rank < c.work rank := by
  obtain ⟨t, rest, hperm, -, hperm', -⟩ := h.cases
  rw [Config.work, Config.work, (hperm.map _).sum_eq, (hperm'.map _).sum_eq]
  simp only [List.map_cons, List.sum_cons, List.map_append, List.sum_append]
  rcases hnext : (run c.mem t).2.1 with _ | t'
  · simp
  · have := hrank c.mem t t' hnext
    simp only [Option.toList_some, List.map_cons, List.map_nil, List.sum_cons, List.sum_nil]
    omega

/-- When each step leaves a thread of lower rank, or none, every run ends. -/
theorem acc_of_rank (hrank : ∀ mem t t', (run mem t).2.1 = some t' → rank t' < rank t) (c : Config σ τ ο) :
    Acc (fun c' c => Step run c c') c :=
  Subrelation.accessible (fun h => Step.work_lt rank hrank h) ((measure (Config.work rank)).wf.apply c)

end Rank

/-- From a configuration whose runs all end, some run reaches a configuration where no step can be taken. The
induction is on the accessibility of the configuration. -/
theorem exists_stuck_of_acc {c₀ : Config σ τ ο} (h : Acc (fun c' c => Step run c c') c₀) :
    ∃ c, Reach run c₀ c ∧ ∀ c', ¬ Step run c c' := by
  induction h with
  | intro c _ ih =>
    by_cases hs : ∃ c', Step run c c'
    · obtain ⟨c', hc'⟩ := hs
      obtain ⟨c'', hreach, hstuck⟩ := ih c' hc'
      exact ⟨c'', Relation.ReflTransGen.head hc' hreach, hstuck⟩
    · exact ⟨c, Relation.ReflTransGen.refl, fun c' hc' => hs ⟨c', hc'⟩⟩

end Etherzero.Threads
