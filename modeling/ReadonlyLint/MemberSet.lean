/-!
Sets of members, each known by its place in the struct, listed in increasing order.
-/
namespace ReadonlyLint

/-- A set of members. -/
structure MemberSet where
  toList : List Nat
  increasing : toList.Pairwise (· < ·)
  deriving DecidableEq

namespace MemberSet

def empty : MemberSet := ⟨[], .nil⟩

instance : Inhabited MemberSet := ⟨empty⟩

/-- Puts a member into its place in an increasing list, unless it is there. -/
def insertInto (m : Nat) : List Nat → List Nat
  | [] => [m]
  | x :: xs =>
    if m < x then m :: x :: xs
    else if m = x then x :: xs
    else x :: insertInto m xs

theorem mem_insertInto {m y : Nat} {xs : List Nat} :
    y ∈ insertInto m xs ↔ y = m ∨ y ∈ xs := by
  induction xs with
  | nil => simp [insertInto]
  | cons x xs ih =>
    unfold insertInto
    split
    · simp
    · split
      · rename_i h
        subst h
        simp
      · simp [ih]
        grind

theorem pairwise_insertInto {m : Nat} {xs : List Nat} (h : xs.Pairwise (· < ·)) :
    (insertInto m xs).Pairwise (· < ·) := by
  induction xs with
  | nil => simp [insertInto]
  | cons x xs ih =>
    obtain ⟨hx, hxs⟩ := List.pairwise_cons.mp h
    unfold insertInto
    split
    · rename_i hm
      refine List.pairwise_cons.mpr ⟨?_, h⟩
      intro y hy
      rcases List.mem_cons.mp hy with rfl | hy
      · exact hm
      · exact Nat.lt_trans hm (hx y hy)
    · split
      · exact h
      · rename_i h1 h2
        refine List.pairwise_cons.mpr ⟨?_, ih hxs⟩
        intro y hy
        rcases mem_insertInto.mp hy with rfl | hy
        · omega
        · exact hx y hy

def insert (s : MemberSet) (m : Nat) : MemberSet :=
  ⟨insertInto m s.toList, pairwise_insertInto s.increasing⟩

def insertAll (s : MemberSet) (ms : List Nat) : MemberSet := ms.foldl insert s

instance : Membership Nat MemberSet := ⟨fun s m => m ∈ s.toList⟩

theorem mem_toList {s : MemberSet} {m : Nat} : m ∈ s.toList ↔ m ∈ s := Iff.rfl

@[simp] theorem mem_insert {s : MemberSet} {m y : Nat} : y ∈ s.insert m ↔ y = m ∨ y ∈ s :=
  mem_insertInto

@[simp] theorem mem_insertAll {s : MemberSet} {ms : List Nat} {y : Nat} :
    y ∈ s.insertAll ms ↔ y ∈ ms ∨ y ∈ s := by
  unfold insertAll
  induction ms generalizing s with
  | nil => simp
  | cons m ms ih =>
    simp [ih]
    grind

end MemberSet

end ReadonlyLint
