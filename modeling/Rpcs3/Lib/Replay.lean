import Rpcs3.Lib.Transition

/-! Linearization points. A sequential object is a state with an operation
that returns a result and a new state; a log of operations is replayed on it
one at a time. A concurrent system is linearizable at its linearization points
when every step either leaves the object's state alone or performs exactly one
operation on it with the result the step reports: `Run.replay` then says that
the operations of any run, replayed in the order of their steps, give the
reported results and the run's final object state. -/
namespace Transition

variable {β π ν : Type*}

/-- Replay a log of operations on a sequential object: the results in order
and the final state. -/
def replay (exec : β → π → ν × β) (o : β) : List π → List ν × β
  | [] => ([], o)
  | p :: ps =>
    let r := exec o p
    let rest := replay exec r.2 ps
    (r.1 :: rest.1, rest.2)

@[simp] theorem replay_nil (exec : β → π → ν × β) (o : β) : replay exec o [] = ([], o) := rfl

theorem replay_append (exec : β → π → ν × β) (o : β) (ps qs : List π) :
    replay exec o (ps ++ qs) =
      ((replay exec o ps).1 ++ (replay exec (replay exec o ps).2 qs).1,
        (replay exec (replay exec o ps).2 qs).2) := by
  induction ps generalizing o with
  | nil => simp
  | cons p ps ih => simp [replay, ih]

/-- One step's effect on the object: none, or one operation `p` performed
atomically with result `v`. -/
def Commits (exec : β → π → ν × β) (o : β) : Option (π × ν) → β → Prop
  | none, o' => o' = o
  | some (p, v), o' => exec o p = (v, o')

variable {σ α : Type*} {step : σ → α → σ → Prop} {inv : σ → Prop}

/-- The linearization theorem: along a run whose steps each commit at most one
operation on the object `obj`, replaying the committed operations in run order
from the first state gives the committed results and the last state. -/
theorem Run.replay {exec : β → π → ν × β} {obj : σ → β} {commit : α → Option (π × ν)}
    (hp : Preserved step inv)
    (hc : ∀ s a t, inv s → step s a t → Commits exec (obj s) (commit a) (obj t))
    {s t : σ} {as : List α} (h : Run step s as t) (hs : inv s) :
    replay exec (obj s) ((as.filterMap commit).map Prod.fst) =
      ((as.filterMap commit).map Prod.snd, obj t) := by
  induction h with
  | refl => simp
  | @cons s₁ t₁ u a as hst _ ih =>
    have ih' := ih (hp _ _ _ hs hst)
    have hc' := hc _ _ _ hs hst
    cases hca : commit a with
    | none =>
      rw [hca] at hc'
      simp only [Commits] at hc'
      simp [hca, ← hc', ih']
    | some pv =>
      obtain ⟨p, v⟩ := pv
      rw [hca] at hc'
      simp only [Commits] at hc'
      simp [hca, Transition.replay, hc', ih']

end Transition
