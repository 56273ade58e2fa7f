/-
Pimd/Chains.lean

The groups and the chains they hang on, apart from everything else a router
holds.

A `Maps` keeps of each group its address, the mapping it refers to, the RP
address stored in it and the sources of its entries (a `Head`), and the
chains themselves.  What the functions of `Pimd.Table` and `Pimd.Remap` do to
it comes down to a few moves: a group is taken off its chain (`unlink`), put
on one (`tie`), made or taken away.  `grp_norp_list` is the chain of the
groups that refer to nothing.

`Chains M lo` is the invariant of these moves.  Every group is on the chain
of what it refers to and on no other; but the *loose* group `lo` is on none.
Unlinking a group makes it loose, tying it puts it back:

    Chains M none  ──unlink──▶  Chains M' (some a)  ──tie──▶  Chains M'' none
-/
import Pimd.RpDelete
import Pimd.Table

namespace Pimd

open Function

/-- What of a group its place on the chains depends on. -/
structure Head where
  group : Addr
  rpaddr : Addr
  active : Option ℕ
  sources : List Addr
deriving DecidableEq

def Grpentry.head (g : Grpentry) : Head :=
  ⟨g.group, g.rpaddr, g.active, g.mrtlink.map Mrtentry.source⟩

@[simp] theorem Grpentry.head_group (g : Grpentry) : g.head.group = g.group := rfl

@[simp] theorem Grpentry.head_active (g : Grpentry) : g.head.active = g.active := rfl

/-- The RP set, the groups and the chains. -/
structure Maps where
  live : List GrpMask
  nextPtr : ℕ
  heads : List Head
  chain : Option ℕ → List Addr

/-- The part of a router that `Maps` keeps. -/
def Router.maps (r : Router) : Maps where
  live := r.rp.live.grpMaskList
  nextPtr := r.rp.nextPtr
  heads := r.grplist.map Grpentry.head
  chain := fun o => o.elim r.grpNorpList r.grplink

/-! ### Moves -/

/-- A group that refers to a mapping and carries the address of its RP. -/
def Head.refer (o : Option ℕ) (rp : Addr) (h : Head) : Head := { h with active := o, rpaddr := rp }

/-- A group without one of its entries; `none` is its (*,G). -/
def Head.drop (k : Option Addr) (h : Head) : Head :=
  match k with
  | none => h
  | some s => { h with sources := h.sources.filter fun x => x ≠ s }

namespace Maps

variable (M : Maps)

def find (a : Addr) : Option Head := searchList Head.group M.heads a

def modify (a : Addr) (f : Head → Head) : Maps :=
  { M with heads := M.heads.map fun h => if h.group = a then f h else h }

/-- A group off the chain of what it refers to.  The chain of a mapping that
does not have the group is lost. -/
def unlink (h : Head) : Maps :=
  { M with
    chain := Function.update M.chain h.active
      (if h.active.isSome ∧ h.group ∉ M.chain h.active then []
        else (M.chain h.active).erase h.group) }

/-- A group made to refer to a mapping, and put on its chain. -/
def tie (a : Addr) (o : Option ℕ) (rp : Addr) : Maps :=
  { M.modify a (Head.refer o rp) with chain := Function.update M.chain o (a :: M.chain o) }

def filterOut (a : Addr) : Maps := { M with heads := M.heads.filter fun h => h.group ≠ a }

/-- A group deleted. -/
def remove (a : Addr) : Maps :=
  match M.find a with
  | none => M
  | some h => (M.unlink h).filterOut a

/-- A group made, on no chain. -/
def create (a : Addr) : Maps :=
  { M with heads := insertList Head.group M.heads ⟨a, inaddrAny, none, []⟩ }

/-! ### The invariant -/

/-- Every group is on its chain and on no other, the loose one on none. -/
structure Chains (lo : Option Addr) : Prop where
  sorted : Seek.Sorted (fun h => ntohl h.group) M.heads
  sources : ∀ h ∈ M.heads, Seek.Sorted ntohl h.sources
  mem_chain : ∀ o a, a ∈ M.chain o ↔ some a ≠ lo ∧ ∃ h ∈ M.heads, h.group = a ∧ h.active = o
  nodup : ∀ o, (M.chain o).Nodup

variable {M} {lo : Option Addr} {a : Addr} {h : Head} {f : Head → Head}

theorem find_eq_some_iff (c : M.Chains lo) : M.find a = some h ↔ h ∈ M.heads ∧ h.group = a := by
  rw [find, searchList, Seek.search_eq_some_iff c.sorted, ntohl_inj]

theorem find_eq_none_iff (c : M.Chains lo) : M.find a = none ↔ ∀ h ∈ M.heads, h.group ≠ a := by
  rw [find, searchList, Seek.search_eq_none_iff c.sorted]
  simp only [ne_eq, ntohl_inj]

/-- A group is in the list once. -/
theorem Chains.eq_of_group (c : M.Chains lo) {h h' : Head} (hh : h ∈ M.heads) (hh' : h' ∈ M.heads)
    (heq : h.group = h'.group) : h = h' :=
  Seek.Sorted.eq_of_key c.sorted hh hh' (congrArg ntohl heq)

/-- A group is on the chain of what it refers to. -/
theorem Chains.mem_chain_iff (c : M.Chains none) (hh : h ∈ M.heads) {o : Option ℕ} :
    h.group ∈ M.chain o ↔ h.active = o := by
  rw [c.mem_chain]
  constructor
  · rintro ⟨-, x, hx, hxg, rfl⟩
    rw [c.eq_of_group hx hh hxg]
  · intro hact
    exact ⟨by simp, h, hh, rfl, hact⟩

/-- A change of a group that keeps its address and the order of its sources. -/
structure Quiet (f : Head → Head) : Prop where
  group : ∀ h, (f h).group = h.group
  sources : ∀ h, Seek.Sorted ntohl h.sources → Seek.Sorted ntohl (f h).sources

theorem Quiet.id : Quiet id := ⟨fun _ => rfl, fun _ hs => hs⟩

theorem Quiet.comp {f' : Head → Head} (hf' : Quiet f') (hf : Quiet f) : Quiet (f' ∘ f) :=
  ⟨fun h => (hf'.group _).trans (hf.group h), fun h hs => hf'.sources _ (hf.sources h hs)⟩

theorem Quiet.refer (o : Option ℕ) (rp : Addr) : Quiet (Head.refer o rp) :=
  ⟨fun _ => rfl, fun _ hs => hs⟩

theorem Quiet.drop (k : Option Addr) : Quiet (Head.drop k) := by
  rcases k with - | s
  · exact Quiet.id
  · exact ⟨fun _ => rfl, fun h hs => hs.sublist List.filter_sublist⟩

theorem modify_modify (M : Maps) (a : Addr) {f' : Head → Head} (hf : Quiet f) :
    (M.modify a f).modify a f' = M.modify a (f' ∘ f) := by
  simp only [modify, List.map_map, mk.injEq, true_and, and_true]
  apply List.map_congr_left
  intro h _
  by_cases ha : h.group = a
  · simp only [comp_apply, if_pos ha]
    rw [if_pos ((hf.group h).trans ha)]
  · simp only [comp_apply, if_neg ha]

theorem mem_modify_heads {h' : Head} :
    h' ∈ (M.modify a f).heads ↔
      (∃ h ∈ M.heads, h.group = a ∧ h' = f h) ∨ h' ∈ M.heads ∧ h'.group ≠ a := by
  simp only [modify, List.mem_map]
  constructor
  · rintro ⟨h, hh, rfl⟩
    by_cases ha : h.group = a
    · rw [if_pos ha]
      exact .inl ⟨h, hh, ha, rfl⟩
    · rw [if_neg ha]
      exact .inr ⟨hh, ha⟩
  · rintro (⟨h, hh, ha, rfl⟩ | ⟨hh, ha⟩)
    · exact ⟨h, hh, if_pos ha⟩
    · exact ⟨h', hh, if_neg ha⟩

theorem modify_eq_self (hf : ∀ h ∈ M.heads, h.group = a → f h = h) : M.modify a f = M := by
  have : (M.heads.map fun h => if h.group = a then f h else h) = M.heads := by
    conv_rhs => rw [← List.map_id M.heads]
    apply List.map_congr_left
    intro h hh
    by_cases ha : h.group = a
    · rw [if_pos ha, hf h hh ha]
      rfl
    · rw [if_neg ha]
      rfl
  rw [modify, this]

/-- Changes that keep the address of a group keep the order of the list. -/
theorem sorted_modify (hf : ∀ h, (f h).group = h.group)
    (hs : Seek.Sorted (fun h => ntohl h.group) M.heads) :
    Seek.Sorted (fun h => ntohl h.group) (M.modify a f).heads := by
  rw [Seek.Sorted, modify, List.pairwise_map]
  refine hs.imp ?_
  intro x y hxy
  have hg : ∀ h : Head, (if h.group = a then f h else h).group = h.group := by
    intro h
    by_cases ha : h.group = a
    · rw [if_pos ha, hf]
    · rw [if_neg ha]
  rw [hg, hg]
  exact hxy

theorem sources_modify (hs : ∀ h, Seek.Sorted ntohl h.sources → Seek.Sorted ntohl (f h).sources)
    (hM : ∀ h ∈ M.heads, Seek.Sorted ntohl h.sources) :
    ∀ h ∈ (M.modify a f).heads, Seek.Sorted ntohl h.sources := by
  intro h' hh'
  rcases mem_modify_heads.1 hh' with ⟨h, hh, -, rfl⟩ | ⟨hh, -⟩
  · exact hs h (hM h hh)
  · exact hM h' hh

/-- What the groups of a list that was changed in one place refer to. -/
theorem exists_modify_iff (hf : ∀ h, (f h).group = h.group) {b : Addr}
    {o : Option ℕ} (hb : b ≠ a ∨ ∀ h, (f h).active = h.active) :
    (∃ h ∈ (M.modify a f).heads, h.group = b ∧ h.active = o) ↔
      ∃ h ∈ M.heads, h.group = b ∧ h.active = o := by
  constructor
  · rintro ⟨h', hh', rfl, rfl⟩
    rcases mem_modify_heads.1 hh' with ⟨h, hh, rfl, rfl⟩ | ⟨hh, -⟩
    · refine ⟨h, hh, (hf h).symm, ?_⟩
      exact ((hb.resolve_left fun hne => hne (hf h)) h).symm
    · exact ⟨h', hh, rfl, rfl⟩
  · rintro ⟨h, hh, rfl, rfl⟩
    by_cases ha : h.group = a
    · exact ⟨f h, mem_modify_heads.2 (.inl ⟨h, hh, ha, rfl⟩), hf h,
        (hb.resolve_left fun hne => hne ha) h⟩
    · exact ⟨h, mem_modify_heads.2 (.inr ⟨hh, ha⟩), rfl, rfl⟩

/-- A group changed in place; what it refers to only where it is loose. -/
theorem Chains.modify (c : M.Chains lo) (hf : Quiet f)
    (hact : lo = some a ∨ ∀ h, (f h).active = h.active) : (M.modify a f).Chains lo := by
  refine ⟨sorted_modify hf.group c.sorted, sources_modify hf.sources c.sources, ?_, c.nodup⟩
  intro o b
  show b ∈ M.chain o ↔ _
  rw [c.mem_chain]
  apply and_congr_right
  intro hb
  refine (exists_modify_iff hf.group ?_).symm
  rcases hact with rfl | hact
  · exact .inl fun heq => hb (congrArg some heq)
  · exact .inr hact

/-- A group taken off its chain is loose. -/
theorem Chains.unlink (c : M.Chains lo) (hh : h ∈ M.heads)
    (hlo : lo = none ∨ lo = some h.group ∧ h.active = none) :
    (M.unlink h).Chains (some h.group) := by
  have hne : ∀ b : Addr, b ≠ h.group → some b ≠ lo := by
    rintro b hb rfl
    rcases hlo with hlo | ⟨hlo, -⟩
    · exact absurd hlo (by simp)
    · exact hb (Option.some.inj hlo)
  -- the group is on the chain of the mapping it refers to, so that is not lost
  have hchain : (M.unlink h).chain
      = update M.chain h.active ((M.chain h.active).erase h.group) := by
    have hnot : ¬(h.active.isSome ∧ h.group ∉ M.chain h.active) := by
      rintro ⟨hsome, hnot⟩
      rcases hlo with hlo | ⟨-, hnone⟩
      · exact hnot ((c.mem_chain _ _).2 ⟨by simp [hlo], h, hh, rfl, rfl⟩)
      · rw [hnone] at hsome
        cases hsome
    rw [Maps.unlink, if_neg hnot]
  refine ⟨c.sorted, c.sources, ?_, ?_⟩
  · intro o b
    show _ ↔ some b ≠ some h.group ∧ ∃ h' ∈ M.heads, h'.group = b ∧ h'.active = o
    rw [hchain]
    by_cases ho : o = h.active
    · subst ho
      rw [update_self, (c.nodup _).mem_erase_iff, c.mem_chain]
      constructor
      · rintro ⟨hb, -, hex⟩
        exact ⟨fun heq => hb (Option.some.inj heq), hex⟩
      · rintro ⟨hb, hex⟩
        have hb' : b ≠ h.group := fun heq => hb (congrArg some heq)
        exact ⟨hb', hne b hb', hex⟩
    · -- a chain the group does not refer to is as it was
      rw [update_of_ne ho, c.mem_chain]
      constructor
      · rintro ⟨-, h', hh', rfl, hact⟩
        refine ⟨?_, h', hh', rfl, hact⟩
        intro heq
        rw [c.eq_of_group hh' hh (Option.some.inj heq)] at hact
        exact ho hact.symm
      · rintro ⟨hb, hex⟩
        exact ⟨hne b fun heq => hb (congrArg some heq), hex⟩
  · intro o
    rw [hchain]
    by_cases ho : o = h.active
    · subst ho
      rw [update_self]
      exact (c.nodup _).erase _
    · rw [update_of_ne ho]
      exact c.nodup o

/-- A loose group is tied. -/
theorem Chains.tie (c : M.Chains (some a)) (hh : ∃ h ∈ M.heads, h.group = a) (o : Option ℕ)
    (rp : Addr) : (M.tie a o rp).Chains none := by
  have hmem : ∀ o' b, b ∈ (M.tie a o rp).chain o' ↔ b ∈ M.chain o' ∨ b = a ∧ o' = o := by
    intro o' b
    show b ∈ update M.chain o (a :: M.chain o) o' ↔ _
    by_cases ho : o' = o
    · subst ho
      rw [update_self, List.mem_cons]
      simp [or_comm]
    · rw [update_of_ne ho]
      simp [ho]
  refine ⟨sorted_modify (fun _ => rfl) c.sorted, sources_modify (fun _ hs => hs) c.sources, ?_, ?_⟩
  · intro o' b
    show _ ↔ some b ≠ none ∧ ∃ h ∈ (M.modify a (Head.refer o rp)).heads, h.group = b ∧ h.active = o'
    rw [hmem, c.mem_chain]
    by_cases hb : b = a
    · subst hb
      obtain ⟨h, hh, ha⟩ := hh
      constructor
      · rintro (⟨hne, -⟩ | ⟨-, rfl⟩)
        · exact absurd rfl hne
        · exact ⟨by simp, Head.refer o' rp h, mem_modify_heads.2 (.inl ⟨h, hh, ha, rfl⟩), ha, rfl⟩
      · rintro ⟨-, h', hh', hg, hact⟩
        rcases mem_modify_heads.1 hh' with ⟨h₀, -, -, rfl⟩ | ⟨-, hne⟩
        · exact .inr ⟨rfl, hact.symm⟩
        · exact absurd hg hne
    · have hf : ∀ h : Head, (Head.refer o rp h).group = h.group := fun _ => rfl
      rw [exists_modify_iff hf (.inl hb)]
      simp [hb]
  · intro o'
    show (update M.chain o (a :: M.chain o) o').Nodup
    by_cases ho : o' = o
    · subst ho
      rw [update_self, List.nodup_cons]
      refine ⟨?_, c.nodup o'⟩
      rw [c.mem_chain]
      exact fun hmem => hmem.1 rfl
    · rw [update_of_ne ho]
      exact c.nodup o'

/-- A loose group is taken away. -/
theorem Chains.filterOut (c : M.Chains (some a)) : (M.filterOut a).Chains none := by
  have hsub : (M.filterOut a).heads.Sublist M.heads := List.filter_sublist
  refine ⟨c.sorted.sublist hsub, fun h hh => c.sources h (hsub.subset hh), ?_, c.nodup⟩
  intro o b
  show b ∈ M.chain o ↔ _
  rw [c.mem_chain]
  constructor
  · rintro ⟨hb, h, hh, rfl, rfl⟩
    refine ⟨by simp, h, List.mem_filter.2 ⟨hh, ?_⟩, rfl, rfl⟩
    simpa using fun heq => hb (congrArg some heq)
  · rintro ⟨-, h, hh, rfl, rfl⟩
    obtain ⟨hh, hne⟩ := List.mem_filter.1 hh
    refine ⟨?_, h, hh, rfl, rfl⟩
    intro heq
    simp [Option.some.inj heq] at hne

/-- A group is deleted. -/
theorem Chains.remove (c : M.Chains lo) (hlo : lo = none ∨
    lo = some a ∧ ∀ h ∈ M.heads, h.group = a → h.active = none)
    (hex : lo = none ∨ ∃ h ∈ M.heads, h.group = a) : (M.remove a).Chains none := by
  rw [Maps.remove]
  rcases hfind : M.find a with - | h
  · -- there is no such group
    rw [find_eq_none_iff c] at hfind
    rcases hex with rfl | ⟨h, hh, ha⟩
    · exact c
    · exact absurd ha (hfind h hh)
  · obtain ⟨hh, rfl⟩ := (find_eq_some_iff c).1 hfind
    refine (c.unlink hh ?_).filterOut
    rcases hlo with hlo | ⟨hlo, hact⟩
    · exact .inl hlo
    · exact .inr ⟨hlo, hact h hh rfl⟩

/-- A group is made. -/
theorem Chains.create (c : M.Chains none) (ha : ∀ h ∈ M.heads, h.group ≠ a) :
    (M.create a).Chains (some a) := by
  have hmem : ∀ h : Head, h ∈ (M.create a).heads ↔ h = ⟨a, inaddrAny, none, []⟩ ∨ h ∈ M.heads :=
    fun h => Seek.mem_insert
  refine ⟨?_, ?_, ?_, c.nodup⟩
  · refine c.sorted.insert ?_
    intro h hh heq
    exact ha h hh (ntohl_injective heq)
  · intro h hh
    rcases (hmem h).1 hh with rfl | hh
    · exact List.Pairwise.nil
    · exact c.sources h hh
  · intro o b
    show b ∈ M.chain o ↔ _
    rw [c.mem_chain]
    constructor
    · rintro ⟨-, h, hh, rfl, rfl⟩
      refine ⟨?_, h, (hmem h).2 (.inr hh), rfl, rfl⟩
      exact fun heq => ha h hh (Option.some.inj heq)
    · rintro ⟨hb, h, hh, rfl, rfl⟩
      rcases (hmem h).1 hh with rfl | hh
      · exact absurd rfl hb
      · exact ⟨by simp, h, hh, rfl, rfl⟩

end Maps

end Pimd
