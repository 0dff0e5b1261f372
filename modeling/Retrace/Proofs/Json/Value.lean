import Mathlib.Algebra.Group.Int.Defs
import Mathlib.Algebra.Group.Nat.Defs
import Retrace.Json.Decode
/-!
# A value reads back from its tree

Two things bound what a tree denotes. Its integers fit 64 bits and its objects are sorted by distinct
keys (`Value.Proper`), whatever order the members were written in; and no part nests deeper than the
reader may enter (`Tree.value?_sound`). Within these bounds a value without doubles is denoted by its own
tree (`Value.value?_tree`).
-/

namespace Retrace.Json

namespace Tree

mutual

/-- How many arrays and objects a tree nests. -/
def nesting : Tree → Nat
  | null | bool _ | number _ | string _ => 0
  | array items => itemNesting items + 1
  | object members => memberNesting members + 1

/-- The deepest nesting of the items of an array. -/
def itemNesting : List Tree → Nat
  | [] => 0
  | t :: ts => max t.nesting (itemNesting ts)

/-- The deepest nesting of the members of an object. -/
def memberNesting : List (Option String × Tree) → Nat
  | [] => 0
  | (_, t) :: ms => max t.nesting (memberNesting ms)

end

theorem itemNesting_le {ts : List Tree} {n : Nat} : itemNesting ts ≤ n ↔ ∀ t ∈ ts, t.nesting ≤ n := by
  induction ts with
  | nil => simp [itemNesting]
  | cons t ts ih => rw [itemNesting, Nat.max_le, ih, List.forall_mem_cons]

theorem memberNesting_le {ms : List (Option String × Tree)} {n : Nat} :
    memberNesting ms ≤ n ↔ ∀ m ∈ ms, m.2.nesting ≤ n := by
  induction ms with
  | nil => simp [memberNesting]
  | cons m ms ih => rw [memberNesting, Nat.max_le, ih, List.forall_mem_cons]

theorem nesting_array_le {ts : List Tree} {n : Nat} :
    (array ts).nesting ≤ n + 1 ↔ ∀ t ∈ ts, t.nesting ≤ n := by
  rw [nesting, Nat.add_le_add_iff_right, itemNesting_le]

theorem nesting_object_le {ms : List (Option String × Tree)} {n : Nat} :
    (object ms).nesting ≤ n + 1 ↔ ∀ m ∈ ms, m.2.nesting ≤ n := by
  rw [nesting, Nat.add_le_add_iff_right, memberNesting_le]

@[simp] theorem nesting_text (s : String) : (text s).nesting = 0 := rfl

theorem nesting_record_le {ms : List (String × Tree)} {n : Nat} :
    (record ms).nesting ≤ n + 1 ↔ ∀ m ∈ ms, m.2.nesting ≤ n := by
  rw [record, nesting_object_le, List.forall_mem_map]

end Tree

namespace Value

/-! ## Every part of a value -/

mutual

/-- Whether a value and every value in it is as `p` says. -/
def Every (p : Value → Prop) : Value → Prop
  | array items => p (array items) ∧ EveryItem p items
  | object members => p (object members) ∧ EveryMember p members
  | v => p v

def EveryItem (p : Value → Prop) : List Value → Prop
  | [] => True
  | v :: vs => v.Every p ∧ EveryItem p vs

def EveryMember (p : Value → Prop) : List (String × Value) → Prop
  | [] => True
  | (_, v) :: ms => v.Every p ∧ EveryMember p ms

end

theorem everyMember_iff {p : Value → Prop} {ms : List (String × Value)} :
    EveryMember p ms ↔ ∀ m ∈ ms, m.2.Every p := by
  induction ms with
  | nil => simp [EveryMember]
  | cons m ms ih => simp [EveryMember, ih]

/-- Whether the members of an object stand in the order of their keys, each key once. -/
def Sorted (members : List (String × Value)) : Prop := members.Pairwise (·.1 < ·.1)

/-- An integer fits 64 bits, and the members of an object are sorted. -/
def Bounded : Value → Prop
  | number (.int n) => -2 ^ 63 ≤ n ∧ n < 2 ^ 64
  | object members => Sorted members
  | _ => True

/-- Whether a value is one that can be held at all. -/
def Proper (v : Value) : Prop := v.Every Bounded

def NoDouble : Value → Prop
  | number (.double _) => False
  | _ => True

/-- Whether all numbers of a value are integers. -/
def Integral (v : Value) : Prop := v.Every NoDouble

/-! ## Members of an object -/

/-- A key beyond all others comes last. -/
theorem setMember_of_last {key : String} {done : List (String × Value)}
    (h : ∀ m ∈ done, m.1 < key) (v : Value) : setMember key v done = done ++ [(key, v)] := by
  induction done with
  | nil => rfl
  | cons m done ih =>
    have hm : m.1 < key := h m (.head _)
    have hne : key ≠ m.1 := fun he => String.lt_irrefl key (he ▸ hm)
    rw [setMember, if_neg (String.lt_asymm hm), if_neg hne, ih fun m' hm' => h m' (.tail _ hm')]
    rfl

theorem mem_setMember {key : String} {v : Value} {done : List (String × Value)}
    {m : String × Value} (h : m ∈ setMember key v done) : m = (key, v) ∨ m ∈ done := by
  induction done with
  | nil => exact .inl (List.mem_singleton.mp h)
  | cons m' done ih =>
    rw [setMember] at h
    split at h
    · exact List.mem_cons.mp h
    · split at h
      · exact (List.mem_cons.mp h).imp_right (.tail _)
      · rcases List.mem_cons.mp h with rfl | h
        · exact .inr (.head _)
        · exact (ih h).imp_right (.tail _)

theorem Sorted.setMember {done : List (String × Value)} (h : Sorted done) (key : String)
    (v : Value) : Sorted (setMember key v done) := by
  induction done with
  | nil => exact List.pairwise_singleton ..
  | cons m done ih =>
    obtain ⟨hm, hdone⟩ := List.pairwise_cons.mp h
    rw [Value.setMember]
    split
    · next hlt =>
      refine List.pairwise_cons.mpr ⟨fun m' hm' => ?_, h⟩
      rcases List.mem_cons.mp hm' with rfl | hm'
      · exact hlt
      · exact String.lt_trans hlt (hm m' hm')
    · next hnlt =>
      split
      · next he =>
        exact List.pairwise_cons.mpr ⟨fun m' hm' => by simpa [he] using hm m' hm', hdone⟩
      · next hne =>
        have hlt : m.1 < key := by
          refine Classical.byContradiction fun h' => hne ?_
          exact String.le_antisymm (String.not_lt.mp h') (String.not_lt.mp hnlt)
        refine List.pairwise_cons.mpr ⟨fun m' hm' => ?_, ih hdone⟩
        rcases mem_setMember hm' with rfl | hm'
        · exact hlt
        · exact hm m' hm'

/-- Members that are sorted already make an object as they are. -/
theorem ofMembers_of_sorted {members : List (String × Value)} (h : Sorted members) :
    ofMembers members = object members := by
  -- along the fold: each member belongs behind all that were set before it
  suffices hfold : ∀ done, Sorted (done ++ members) →
      members.foldl (fun done m => setMember m.1 m.2 done) done = done ++ members by
    rw [ofMembers, hfold [] h, List.nil_append]
  clear h
  induction members with
  | nil => simp
  | cons m members ih =>
    intro done h
    have hlast : ∀ m' ∈ done, m'.1 < m.1 := fun m' hm' =>
      (List.pairwise_append.mp h).2.2 m' hm' m (.head _)
    rw [List.append_cons] at h ⊢
    rw [List.foldl_cons, setMember_of_last hlast, ih _ h]

/-- Members in any order make an object that is sorted and holds some of them. -/
theorem ofMembers_sound (members : List (String × Value)) :
    ∃ ms, ofMembers members = object ms ∧ Sorted ms ∧ ∀ m ∈ ms, m ∈ members := by
  suffices hfold : ∀ done, Sorted done →
      Sorted (members.foldl (fun done m => setMember m.1 m.2 done) done) ∧
      ∀ m ∈ members.foldl (fun done m => setMember m.1 m.2 done) done, m ∈ done ∨ m ∈ members by
    obtain ⟨hsorted, hmem⟩ := hfold [] .nil
    exact ⟨_, rfl, hsorted, fun m hm => (hmem m hm).resolve_left nofun⟩
  induction members with
  | nil => exact fun done h => ⟨h, fun m hm => .inl hm⟩
  | cons m members ih =>
    intro done h
    obtain ⟨hsorted, hmem⟩ := ih (setMember m.1 m.2 done) (h.setMember ..)
    refine ⟨hsorted, fun m' hm' => ?_⟩
    rcases hmem m' hm' with hm' | hm'
    · rcases mem_setMember hm' with rfl | hm'
      · exact .inr (.head _)
      · exact .inl hm'
    · exact .inr (.tail _ hm')

end Value

/-! ## Numbers -/

/-- The literal of an integer of 64 bits denotes it. -/
theorem Literal.number?_ofInt {n : Int} (hlow : -2 ^ 63 ≤ n) (hhigh : n < 2 ^ 64) :
    (Literal.ofInt n).number? = some (.int n) := by
  unfold Literal.number? Literal.ofInt Literal.isWhole
  rw [Nat.one_shiftLeft, Nat.one_shiftLeft]
  by_cases hneg : n < 0
  · have hpos : 0 < n.natAbs := by omega
    have hle : n.natAbs ≤ 2 ^ 63 := by omega
    have habs : -(n.natAbs : Int) = n := by omega
    simp only [hneg, hpos, hle, habs]
    rfl
  · have hlt : n.natAbs < 2 ^ 64 := by omega
    have habs : (n.natAbs : Int) = n := by omega
    simp only [hneg, hlt, habs]
    rfl

theorem Literal.number?_bounded {l : Literal} {n : Number} (h : l.number? = some n) :
    (Value.number n).Bounded := by
  rw [Literal.number?, Nat.one_shiftLeft, Nat.one_shiftLeft] at h
  split at h
  · next hl =>
    simp only [Bool.and_eq_true, decide_eq_true_eq] at hl
    cases h
    simp only [Value.Bounded]
    omega
  · split at h
    · next hl =>
      simp only [Bool.and_eq_true, decide_eq_true_eq] at hl
      cases h
      simp only [Value.Bounded]
      omega
    · obtain ⟨x, -, rfl⟩ := Option.map_eq_some_iff.mp h
      trivial

/-! ## Values -/

namespace Value

mutual

/-- The tree of a value denotes it. -/
theorem value?_tree : ∀ {v : Value} {depth : Nat}, v.Proper → v.Integral → v.tree.nesting ≤ depth →
    v.tree.value? depth = some v
  | null, _, _, _, _ => rfl
  | bool _, _, _, _, _ => rfl
  | number (.int n), _, hv, _, _ => by
    show (Literal.ofInt n).number?.map number = _
    rw [Literal.number?_ofInt hv.1 hv.2]
    rfl
  | number (.double _), _, _, hi, _ => hi.elim
  | string _, _, _, _, _ => rfl
  | array items, 0, _, _, hn => absurd hn (Nat.not_succ_le_zero _)
  | array items, depth + 1, hv, hi, hn => by
    have hitems := itemValues?_trees hv.2 hi.2 (Nat.le_of_succ_le_succ hn)
    rw [tree, Tree.value?, hitems]
    rfl
  | object members, 0, _, _, hn => absurd hn (Nat.not_succ_le_zero _)
  | object members, depth + 1, hv, hi, hn => by
    have hmembers := memberValues?_trees hv.2 hi.2 (Nat.le_of_succ_le_succ hn)
    rw [tree, Tree.value?, hmembers, Option.map_some, ofMembers_of_sorted hv.1]

theorem itemValues?_trees : ∀ {vs : List Value} {depth : Nat}, EveryItem Bounded vs →
    EveryItem NoDouble vs → Tree.itemNesting (itemTrees vs) ≤ depth →
    Tree.itemValues? depth (itemTrees vs) = some vs
  | [], _, _, _, _ => rfl
  | v :: vs, _, hv, hi, hn => by
    obtain ⟨hfirst, hrest⟩ := Nat.max_le.mp hn
    rw [itemTrees, Tree.itemValues?, value?_tree hv.1 hi.1 hfirst,
      itemValues?_trees hv.2 hi.2 hrest]

theorem memberValues?_trees : ∀ {ms : List (String × Value)} {depth : Nat},
    EveryMember Bounded ms → EveryMember NoDouble ms → Tree.memberNesting (memberTrees ms) ≤ depth →
    Tree.memberValues? depth (memberTrees ms) = some ms
  | [], _, _, _, _ => rfl
  | (k, v) :: ms, _, hv, hi, hn => by
    obtain ⟨hfirst, hrest⟩ := Nat.max_le.mp hn
    unfold memberTrees Tree.memberValues?
    rw [value?_tree hv.1 hi.1 hfirst, memberValues?_trees hv.2 hi.2 hrest]

end

theorem memberNesting_trees_le {ms : List (String × Value)} {n : Nat} :
    Tree.memberNesting (memberTrees ms) ≤ n ↔ ∀ m ∈ ms, m.2.tree.nesting ≤ n := by
  induction ms with
  | nil => simp [memberTrees, Tree.memberNesting]
  | cons m ms ih => rw [memberTrees, Tree.memberNesting, Nat.max_le, ih, List.forall_mem_cons]

end Value

namespace Tree

open Value (Proper EveryItem EveryMember Bounded)

mutual

/-- What a tree denotes can be held, and nests no deeper than the reader was to enter. -/
theorem value?_sound : ∀ {t : Tree} {depth : Nat} {v : Value}, t.value? depth = some v →
    v.Proper ∧ v.tree.nesting ≤ depth
  | null, _, _, h => by cases h; exact ⟨trivial, Nat.zero_le _⟩
  | bool _, _, _, h => by cases h; exact ⟨trivial, Nat.zero_le _⟩
  | number l, _, _, h => by
    obtain ⟨n, hn, rfl⟩ := Option.map_eq_some_iff.mp h
    exact ⟨Literal.number?_bounded hn, Nat.zero_le _⟩
  | string s, _, _, h => by
    obtain ⟨s, -, rfl⟩ := Option.map_eq_some_iff.mp h
    exact ⟨trivial, Nat.zero_le _⟩
  | array _, 0, _, h => nomatch h
  | array items, depth + 1, _, h => by
    obtain ⟨vs, hvs, rfl⟩ := Option.map_eq_some_iff.mp h
    obtain ⟨hproper, hnesting⟩ := itemValues?_sound hvs
    exact ⟨⟨trivial, hproper⟩, Nat.succ_le_succ hnesting⟩
  | object _, 0, _, h => nomatch h
  | object members, depth + 1, _, h => by
    obtain ⟨read, hread, rfl⟩ := Option.map_eq_some_iff.mp h
    obtain ⟨ms, hms, hsorted, hsub⟩ := Value.ofMembers_sound read
    have hsound := memberValues?_sound hread
    rw [hms]
    exact ⟨⟨hsorted, Value.everyMember_iff.mpr fun m hm => (hsound m (hsub m hm)).1⟩,
      Nat.succ_le_succ (Value.memberNesting_trees_le.mpr fun m hm => (hsound m (hsub m hm)).2)⟩

theorem itemValues?_sound : ∀ {ts : List Tree} {depth : Nat} {vs : List Value},
    itemValues? depth ts = some vs →
    EveryItem Bounded vs ∧ itemNesting (Value.itemTrees vs) ≤ depth
  | [], _, _, h => by cases h; exact ⟨trivial, Nat.zero_le _⟩
  | t :: ts, depth, _, h => by
    rw [itemValues?] at h
    split at h
    · next v vs hv hvs =>
      cases h
      obtain ⟨hfirst, hfirst'⟩ := value?_sound hv
      obtain ⟨hrest, hrest'⟩ := itemValues?_sound hvs
      exact ⟨⟨hfirst, hrest⟩, Nat.max_le.mpr ⟨hfirst', hrest'⟩⟩
    · cases h

theorem memberValues?_sound : ∀ {ms : List (Option String × Tree)} {depth : Nat}
    {vs : List (String × Value)}, memberValues? depth ms = some vs →
    ∀ m ∈ vs, m.2.Proper ∧ m.2.tree.nesting ≤ depth
  | [], _, _, h => by cases h; nofun
  | (k, t) :: ms, depth, _, h => by
    unfold memberValues? at h
    split at h
    · next key v vs hv hvs =>
      cases h
      exact List.forall_mem_cons.mpr ⟨value?_sound hv, memberValues?_sound hvs⟩
    · cases h

end

end Tree

end Retrace.Json
