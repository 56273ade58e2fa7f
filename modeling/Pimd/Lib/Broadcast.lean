/-
Pimd/Lib/Broadcast.lean

Nodes on one link that send to all the others.

A message stays with each receiver until it is delivered there, in any order
and once.  The rule of the module is about a role that a node may hold: where
a node takes the role only by sending, and a node that is delivered a message
keeps the role only by sending again, two nodes with the role always have a
message of one of them undelivered at the other (`Announced`).
-/
import Mathlib.Data.Nat.Notation
import Mathlib.Logic.Function.Basic

namespace Broadcast

variable {ι σ μ : Type*}

/-- The nodes, and what is undelivered at each with its sender. -/
structure Net (ι σ μ : Type*) where
  node : ι → σ
  pending : ι → List (ι × μ)

variable [DecidableEq ι] {n : Net ι σ μ} {i j : ι} {s : σ} {out : List μ}

/-- A node moves, and sends to all the others. -/
def Net.act (n : Net ι σ μ) (i : ι) (s : σ) (out : List μ) : Net ι σ μ where
  node := Function.update n.node i s
  pending j := if j = i then n.pending j else n.pending j ++ out.map (Prod.mk i)

/-- A message is taken from those undelivered at a node. -/
def Net.take (n : Net ι σ μ) (j : ι) (k : ℕ) : Net ι σ μ :=
  { n with pending := Function.update n.pending j ((n.pending j).eraseIdx k) }

theorem Net.act_node_self : (n.act i s out).node i = s := by simp [Net.act]

theorem Net.act_node_of_ne (h : j ≠ i) : (n.act i s out).node j = n.node j := by
  simp [Net.act, h]

theorem Net.mem_act_pending {p : ι × μ} (hp : p ∈ n.pending j) : p ∈ (n.act i s out).pending j := by
  simp only [Net.act]
  split
  · exact hp
  · exact List.mem_append_left _ hp

/-- What a node sends is undelivered at every other one. -/
theorem Net.sent_mem {m : μ} (hm : m ∈ out) (h : j ≠ i) : (i, m) ∈ (n.act i s out).pending j := by
  simp only [Net.act, if_neg h]
  exact List.mem_append_right _ (List.mem_map_of_mem hm)

/-! ### What every node and every message keeps -/

/-- Every node meets `I`, every undelivered message `M`. -/
structure All (I : ι → σ → Prop) (M : ι → μ → Prop) (n : Net ι σ μ) : Prop where
  node : ∀ i, I i (n.node i)
  msg : ∀ j, ∀ p ∈ n.pending j, M p.1 p.2

variable {I : ι → σ → Prop} {M : ι → μ → Prop}

theorem All.act (h : All I M n) (hs : I i s) (hout : ∀ m ∈ out, M i m) :
    All I M (n.act i s out) := by
  refine ⟨fun j => ?_, fun j p hp => ?_⟩
  · rcases eq_or_ne j i with rfl | hj
    · rw [Net.act_node_self]
      exact hs
    · rw [Net.act_node_of_ne hj]
      exact h.node j
  · simp only [Net.act] at hp
    split at hp
    · exact h.msg j p hp
    · rcases List.mem_append.1 hp with hp | hp
      · exact h.msg j p hp
      · obtain ⟨m, hm, rfl⟩ := List.mem_map.1 hp
        exact hout m hm

theorem All.take (h : All I M n) (k : ℕ) : All I M (n.take j k) := by
  refine ⟨h.node, fun j' p hp => ?_⟩
  rcases eq_or_ne j' j with rfl | hj
  · simp only [Net.take, Function.update_self] at hp
    exact h.msg j' p (List.mem_of_mem_eraseIdx hp)
  · simp only [Net.take, Function.update_of_ne hj] at hp
    exact h.msg j' p hp

/-! ### A role that is announced -/

/-- Two nodes with the role have a message of one undelivered at the other. -/
def Announced (W : ι → σ → Prop) (n : Net ι σ μ) : Prop :=
  ∀ i j, i ≠ j → W i (n.node i) → W j (n.node j) →
    (∃ m, (i, m) ∈ n.pending j) ∨ ∃ m, (j, m) ∈ n.pending i

variable {W : ι → σ → Prop}

/-- An announcement stays. -/
theorem Net.act_keeps {a b : ι} (h : (∃ m, (a, m) ∈ n.pending b) ∨ ∃ m, (b, m) ∈ n.pending a) :
    (∃ m, (a, m) ∈ (n.act i s out).pending b) ∨ ∃ m, (b, m) ∈ (n.act i s out).pending a := by
  rcases h with ⟨m, hm⟩ | ⟨m, hm⟩
  · exact .inl ⟨m, Net.mem_act_pending hm⟩
  · exact .inr ⟨m, Net.mem_act_pending hm⟩

/-- **A node takes the role only by sending.** -/
theorem Announced.act (h : Announced W n) (hw : W i s → W i (n.node i) ∨ out ≠ []) :
    Announced W (n.act i s out) := by
  have hpair : ∀ j, j ≠ i → W i s → W j (n.node j) →
      (∃ m, (i, m) ∈ (n.act i s out).pending j) ∨ ∃ m, (j, m) ∈ (n.act i s out).pending i := by
    intro j hj hi hwj
    rcases hw hi with hold | hout
    · exact Net.act_keeps (h i j (Ne.symm hj) hold hwj)
    · obtain ⟨m, hm⟩ := List.exists_mem_of_ne_nil out hout
      exact .inl ⟨m, Net.sent_mem hm hj⟩
  intro a b hab ha hb
  rcases eq_or_ne a i with rfl | hai
  · rw [Net.act_node_self] at ha
    rw [Net.act_node_of_ne (Ne.symm hab)] at hb
    exact hpair b (Ne.symm hab) ha hb
  · rw [Net.act_node_of_ne hai] at ha
    rcases eq_or_ne b i with rfl | hbi
    · rw [Net.act_node_self] at hb
      exact (hpair a hai hb ha).symm
    · rw [Net.act_node_of_ne hbi] at hb
      exact Net.act_keeps (h a b hab ha hb)

/-- The pairs a delivery does not touch. -/
theorem Announced.deliver (h : Announced W n) (k : ℕ) (hw : W j s → out ≠ []) :
    Announced W ((n.take j k).act j s out) := by
  have hpair : ∀ b, b ≠ j → W j s → (∃ m, (j, m) ∈ ((n.take j k).act j s out).pending b) := by
    intro b hb hj
    obtain ⟨m, hm⟩ := List.exists_mem_of_ne_nil out (hw hj)
    exact ⟨m, Net.sent_mem hm hb⟩
  intro a b hab ha hb
  rcases eq_or_ne a j with rfl | haj
  · rw [Net.act_node_self] at ha
    exact .inl (hpair b (Ne.symm hab) ha)
  · rw [Net.act_node_of_ne haj] at ha
    rcases eq_or_ne b j with rfl | hbj
    · rw [Net.act_node_self] at hb
      exact .inr (hpair a haj hb)
    · rw [Net.act_node_of_ne hbj] at hb
      refine Net.act_keeps ?_
      simp only [Net.take, Function.update_of_ne haj, Function.update_of_ne hbj]
      exact h a b hab ha hb

/-- With nothing undelivered one node has the role. -/
theorem Announced.unique (h : Announced W n) (hquiet : ∀ i, n.pending i = []) (hi : W i (n.node i))
    (hj : W j (n.node j)) : i = j := by
  by_contra hne
  rcases h i j hne hi hj with ⟨m, hm⟩ | ⟨m, hm⟩
  · rw [hquiet j] at hm
    cases hm
  · rw [hquiet i] at hm
    cases hm

end Broadcast
