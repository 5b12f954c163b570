import Mathlib.Data.List.FinRange
import Mathlib.Logic.Function.Basic

/-!
# Delivering a message to every node

The nodes of a system are a function from their number. A broadcast updates
them one after the other; where what a node does with the message changes this
node alone, the order does not show: every node is changed once
(`broadcast_apply`), also where the loop changes more than the nodes
(`foldl_local`).
-/

namespace Bryllite.Framework

variable {α : Type*} {n : Nat}

/-- `f` at every node, one after the other. -/
def broadcast (f : α → α) (nodes : Fin n → α) : Fin n → α :=
  (List.finRange n).foldl (fun nodes k => Function.update nodes k (f (nodes k))) nodes

theorem foldl_update_apply (f : α → α) {l : List (Fin n)} (hl : l.Nodup) (nodes : Fin n → α) (k : Fin n) :
    l.foldl (fun nodes k => Function.update nodes k (f (nodes k))) nodes k =
      if k ∈ l then f (nodes k) else nodes k := by
  induction l generalizing nodes with
  | nil => simp
  | cons a l ih =>
    obtain ⟨ha, hl⟩ := List.nodup_cons.mp hl
    rw [List.foldl_cons, ih hl]
    by_cases hk : k = a
    · subst hk
      simp [ha]
    · simp [hk]

@[simp] theorem broadcast_apply (f : α → α) (nodes : Fin n → α) (k : Fin n) :
    broadcast f nodes k = f (nodes k) := by
  rw [broadcast, foldl_update_apply f (List.nodup_finRange n), if_pos (List.mem_finRange k)]

/-- A loop in which every turn changes its own node, as that node was before
the loop. -/
theorem foldl_local {σ : Type*} (nodes : σ → Fin n → α) {g : σ → Fin n → σ} {f : α → α} {l : List (Fin n)}
    (hl : l.Nodup) (w : σ)
    (h : ∀ w' k, k ∈ l → nodes w' k = nodes w k → nodes (g w' k) = Function.update (nodes w') k (f (nodes w' k)))
    (k : Fin n) : nodes (l.foldl g w) k = if k ∈ l then f (nodes w k) else nodes w k := by
  induction l generalizing w with
  | nil => simp
  | cons a l ih =>
    obtain ⟨ha, hl⟩ := List.nodup_cons.mp hl
    have hg := h w a List.mem_cons_self rfl
    rw [List.foldl_cons, ih hl (g w a) fun w' k hk hw' => h w' k (List.mem_cons_of_mem _ hk) ?_, hg]
    · by_cases hk : k = a
      · subst hk
        simp [ha]
      · simp [hk]
    · rw [hw', hg, Function.update_of_ne]
      rintro rfl
      exact ha hk

end Bryllite.Framework
