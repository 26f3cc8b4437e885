import Mathlib.Algebra.BigOperators.Group.Finset.Basic
import Mathlib.Order.Bounds.Defs
import ReadonlyLint.Proofs.Utf8

/-!
What edits make of a source. The edits are applied from the end of the source to its start, so all
that stands before the place of an edit is still the source. Hence the result is the source with,
at each offset, the texts that go there; it depends on the set of edits only.
-/
namespace ReadonlyLint

/-! ## Sorted lists without repetition -/

theorem nodup_eraseDups {α : Type} [DecidableEq α] (l : List α) : l.eraseDups.Nodup := by
  -- what `eraseDups` goes on with is shorter by at least the element that it keeps
  induction hn : l.length using Nat.strongRecOn generalizing l with
  | ind n ih =>
    cases l with
    | nil => simp
    | cons a l =>
      have hlt : (l.filter fun b => !b == a).length < n := by
        have hle := List.length_filter_le (fun b => !b == a) l
        rw [← hn, List.length_cons]
        omega
      rw [List.eraseDups_cons, List.nodup_cons]
      refine ⟨?_, ih _ hlt _ rfl⟩
      simp [List.mem_eraseDups]

section Sorting

variable {α : Type} [DecidableEq α] {le : α → α → Bool}
  (trans : ∀ a b c, le a b → le b c → le a c) (total : ∀ a b, le a b || le b a)
  (antisymm : ∀ a b, le a b → le b a → a = b)
include trans total antisymm

/-- The distinct elements in order are the only such list. -/
theorem eq_mergeSort_eraseDups {l sorted : List α} (hnodup : sorted.Nodup)
    (hsorted : sorted.Pairwise (le · ·)) (hmem : ∀ a, a ∈ sorted ↔ a ∈ l) :
    sorted = l.eraseDups.mergeSort le := by
  have hperm : sorted.Perm (l.eraseDups.mergeSort le) := by
    refine List.Perm.trans ?_ (List.mergeSort_perm _ le).symm
    rw [List.perm_ext_iff_of_nodup hnodup (nodup_eraseDups l)]
    intro a
    rw [hmem, List.mem_eraseDups]
  exact hperm.eq_of_pairwise (fun a b _ _ => antisymm a b) hsorted
    (List.pairwise_mergeSort trans total _)

end Sorting

/-! ## Texts woven into a text -/

/-- The items with `added o` before the one at each offset `o`, and at the end. The first item is at
the given offset, and each takes up its size. -/
def weave {α : Type} (size : α → Nat) (added : Nat → List α) : Nat → List α → List α
  | o, [] => added o
  | o, x :: xs => added o ++ x :: weave size added (o + size x) xs

section Weaving

variable {α : Type} {size : α → Nat}

theorem weave_congr {added added' : Nat → List α} {o : Nat} (xs : List α)
    (h : ∀ p, o ≤ p → added p = added' p) : weave size added o xs = weave size added' o xs := by
  induction xs generalizing o with
  | nil => exact h o (Nat.le_refl o)
  | cons x xs ih =>
    rw [weave, weave, h o (Nat.le_refl o), ih]
    intro p hp
    exact h p (by omega)

theorem weave_nothing (o : Nat) (xs : List α) : weave size (fun _ => []) o xs = xs := by
  induction xs generalizing o with
  | nil => rfl
  | cons x xs ih => simp [weave, ih]

end Weaving

/-- One insertion. While nothing was added before its place, it falls where the offset is in the
source, whatever was added from there on. -/
theorem insertAt_weave {added : Nat → List Char} {n o : Nat} {cs : List Char} (text : List Char)
    (hn : isBoundary n cs) (hbefore : ∀ p, p < o + n → added p = []) :
    insertAt text n (weave Char.utf8Size added o cs) =
      weave Char.utf8Size (fun p => if p = o + n then text ++ added p else added p) o cs := by
  induction cs generalizing n o with
  | nil =>
    cases n with
    | zero => simp [insertAt, weave]
    | succ n => simp [isBoundary] at hn
  | cons c cs ih =>
    have hpos := c.utf8Size_pos
    cases n with
    | zero =>
      have hrest : weave Char.utf8Size added (o + c.utf8Size) cs =
          weave Char.utf8Size (fun p => if p = o + 0 then text ++ added p else added p)
            (o + c.utf8Size) cs := by
        apply weave_congr
        intro p hp
        rw [if_neg (by omega)]
      rw [weave, weave, ← hrest, insertAt]
      simp
    | succ n =>
      obtain ⟨hsize, hn⟩ : c.utf8Size ≤ n + 1 ∧ isBoundary (n + 1 - c.utf8Size) cs = true := by
        simpa [isBoundary] using hn
      have hplace : o + c.utf8Size + (n + 1 - c.utf8Size) = o + (n + 1) := by omega
      rw [weave, weave, if_neg (by omega), hbefore o (by omega), List.nil_append, List.nil_append,
        insertAt, ih hn (fun p hp => hbefore p (by omega)), hplace]

namespace Edit

/-- The output with the text of an edit at its offset. -/
def insertInto (output : List Char) (e : Edit) : List Char :=
  insertAt e.text.toList e.offset output

/-- All insertions, from the last place to the first. -/
theorem foldl_insertInto_weave {edits : List Edit} {cs : List Char}
    (hsorted : edits.Pairwise fun a b => b.offset ≤ a.offset)
    (hvalid : ∀ e ∈ edits, isBoundary e.offset cs) {added : Nat → List Char}
    (hbefore : ∀ e ∈ edits, ∀ p, p < e.offset → added p = []) :
    edits.foldl insertInto (weave Char.utf8Size added 0 cs) =
      weave Char.utf8Size
        (fun p => (edits.filter (·.offset = p)).reverse.flatMap (·.text.toList) ++ added p)
        0 cs := by
  induction edits generalizing added with
  | nil => simp
  | cons e edits ih =>
    obtain ⟨hfirst, hsorted⟩ := List.pairwise_cons.mp hsorted
    have hstep := insertAt_weave e.text.toList (o := 0) (hvalid e List.mem_cons_self)
      (fun p hp => hbefore e List.mem_cons_self p (by omega))
    rw [List.foldl_cons, insertInto, hstep, ih hsorted]
    · apply weave_congr
      intro p _
      by_cases hp : p = e.offset
      · simp [hp]
      · simp [hp, Ne.symm hp]
    · intro x hx
      exact hvalid x (List.mem_cons_of_mem e hx)
    · intro x hx p hp
      have hle := hfirst x hx
      rw [if_neg (by omega)]
      exact hbefore x (List.mem_cons_of_mem e hx) p hp

/-- The edits are applied one after the other up to the first that has no place. -/
theorem foldlM_apply (source : List Char) (length : Nat) (edits : List Edit)
    (output : List Char) :
    edits.foldlM (apply source length) output =
      match edits.find? fun e => !isBoundary e.offset source with
      | some e => .error { offset := e.offset, length }
      | none => .ok (edits.foldl insertInto output) := by
  induction edits generalizing output with
  | nil => rfl
  | cons e edits ih =>
    rw [List.foldlM_cons]
    by_cases he : isBoundary e.offset source = true
    · have hstep : apply source length output e = .ok (insertInto output e) := by
        simp [apply, he, insertInto]
      rw [hstep, List.find?_cons_of_neg (by simp [he])]
      exact ih _
    · have hstep : apply source length output e = .error { offset := e.offset, length } := by
        simp [apply, he]
      rw [hstep, List.find?_cons_of_pos (by simp [he])]
      rfl

/-! ## The order of application -/

theorem precedes_iff {a b : Edit} :
    precedes a b = true ↔ b.offset < a.offset ∨ a.offset = b.offset ∧ a.text ≤ b.text := by
  simp [precedes]

theorem precedes_trans (a b c : Edit) (hab : precedes a b) (hbc : precedes b c) :
    precedes a c := by
  rw [precedes_iff] at *
  rcases hab with hab | ⟨hab, htext⟩
  · exact Or.inl (by omega)
  · rcases hbc with hbc | ⟨hbc, htext'⟩
    · exact Or.inl (by omega)
    · exact Or.inr ⟨hab.trans hbc, String.le_trans htext htext'⟩

theorem precedes_total (a b : Edit) : precedes a b || precedes b a := by
  rw [Bool.or_eq_true, precedes_iff, precedes_iff]
  rcases Nat.lt_trichotomy a.offset b.offset with h | h | h
  · exact Or.inr (Or.inl h)
  · rcases String.le_total a.text b.text with ht | ht
    · exact Or.inl (Or.inr ⟨h, ht⟩)
    · exact Or.inr (Or.inr ⟨h.symm, ht⟩)
  · exact Or.inl (Or.inl h)

theorem precedes_antisymm (a b : Edit) (hab : precedes a b) (hba : precedes b a) : a = b := by
  rw [precedes_iff] at *
  obtain ⟨hoffset, hle, hle'⟩ : a.offset = b.offset ∧ a.text ≤ b.text ∧ b.text ≤ a.text := by
    rcases hab with hab | ⟨hab, htext⟩
    · omega
    · rcases hba with hba | ⟨-, htext'⟩
      · omega
      · exact ⟨hab, htext, htext'⟩
  cases a
  cases b
  cases hoffset
  cases String.le_antisymm hle hle'
  rfl

theorem mem_ordered {edits : List Edit} {e : Edit} : e ∈ ordered edits ↔ e ∈ edits := by
  unfold ordered
  rw [List.mem_mergeSort, List.mem_eraseDups]

theorem nodup_ordered (edits : List Edit) : (ordered edits).Nodup :=
  (List.mergeSort_perm _ precedes).nodup_iff.mpr (nodup_eraseDups edits)

theorem pairwise_ordered (edits : List Edit) : (ordered edits).Pairwise (precedes · ·) :=
  List.pairwise_mergeSort precedes_trans precedes_total _

theorem offset_le_of_precedes {a b : Edit} (h : precedes a b) : b.offset ≤ a.offset := by
  rw [precedes_iff] at h
  omega

/-- The order of application depends on the set of edits only. -/
theorem ordered_congr {edits edits' : List Edit} (h : ∀ e, e ∈ edits' ↔ e ∈ edits) :
    ordered edits' = ordered edits := by
  refine eq_mergeSort_eraseDups precedes_trans precedes_total precedes_antisymm
    (nodup_ordered edits') (pairwise_ordered edits') ?_
  intro e
  rw [mem_ordered, h]

/-! ## The texts at an offset -/

/-- The distinct texts that go to an offset, from the greatest to the least by their bytes. -/
def textsAt (edits : List Edit) (offset : Nat) : List String :=
  ((edits.filter (·.offset = offset)).map (·.text)).eraseDups.mergeSort fun a b =>
    utf8Bytes b ≤ utf8Bytes a

/-- What the order of application leaves at an offset, last applied first. -/
theorem textsAt_eq (edits : List Edit) (offset : Nat) :
    ((ordered edits).filter (·.offset = offset)).reverse.map (·.text) = textsAt edits offset := by
  refine eq_mergeSort_eraseDups ?_ ?_ ?_ ?_ ?_ ?_
  · simpa [utf8Bytes_le_iff] using fun a b c (h : b ≤ a) h' => String.le_trans h' h
  · simpa [utf8Bytes_le_iff] using fun a b => String.le_total b a
  · simpa [utf8Bytes_le_iff] using fun a b (h : b ≤ a) h' => String.le_antisymm h' h
  · -- two edits at one offset with one text are one edit
    rw [List.map_reverse, List.nodup_reverse]
    refine List.Nodup.map_on ?_ ((nodup_ordered edits).filter _)
    rintro ⟨o, t⟩ ha ⟨o', t'⟩ hb rfl
    have ho : o = offset := by simpa using (List.mem_filter.mp ha).2
    have ho' : o' = offset := by simpa using (List.mem_filter.mp hb).2
    rw [ho, ho']
  · rw [List.pairwise_map, List.pairwise_reverse]
    refine ((pairwise_ordered edits).filter _).imp_of_mem ?_
    intro a b ha hb hab
    have ho : a.offset = offset := by simpa using (List.mem_filter.mp ha).2
    have ho' : b.offset = offset := by simpa using (List.mem_filter.mp hb).2
    have hle : a.text ≤ b.text := by
      rcases precedes_iff.mp hab with h | ⟨-, h⟩
      · omega
      · exact h
    simpa [utf8Bytes_le_iff] using hle
  · intro text
    simp only [List.map_reverse, List.mem_reverse, List.mem_map, List.mem_filter, mem_ordered]

/-! ## The result -/

/-- Between items before which nothing is added, the rest is woven. -/
theorem weave_append_of_nil {added : Nat → List UInt8} {o : Nat} {bytes rest : List UInt8}
    (h : ∀ p, o ≤ p → p < o + bytes.length → added p = []) :
    weave (fun _ => 1) added o (bytes ++ rest) =
      bytes ++ weave (fun _ => 1) added (o + bytes.length) rest := by
  induction bytes generalizing o with
  | nil => rfl
  | cons byte bytes ih =>
    have hplace : o + 1 + bytes.length = o + (byte :: bytes).length := by
      simp only [List.length_cons]
      omega
    rw [List.cons_append, weave, h o (Nat.le_refl o) (by simp), ih, hplace]
    · rfl
    · intro p hp hlt
      exact h p (by omega) (by omega)

/-- Texts that are woven in at boundaries of characters are woven into the bytes. -/
theorem flatMap_weave {added : Nat → List Char} {o : Nat} {cs : List Char}
    (h : ∀ p, o ≤ p → added p ≠ [] → isBoundary (p - o) cs) :
    (weave Char.utf8Size added o cs).flatMap String.utf8EncodeChar =
      weave (fun _ => 1) (fun p => (added p).flatMap String.utf8EncodeChar) o
        (cs.flatMap String.utf8EncodeChar) := by
  induction cs generalizing o with
  | nil => rfl
  | cons c cs ih =>
    have hpos := c.utf8Size_pos
    have hcases : ∀ p, o < p → added p ≠ [] →
        o + c.utf8Size ≤ p ∧ isBoundary (p - (o + c.utf8Size)) cs := by
      intro p hlt hsome
      have hboundary := h p (by omega) hsome
      obtain ⟨n, hn⟩ : ∃ n, p - o = n + 1 := ⟨p - o - 1, by omega⟩
      rw [hn, isBoundary, Bool.and_eq_true, decide_eq_true_eq, ← hn, Nat.sub_sub] at hboundary
      exact ⟨by omega, hboundary.2⟩
    rcases hc : String.utf8EncodeChar c with _ | ⟨first, others⟩
    · exact absurd hc String.utf8EncodeChar_ne_nil
    · have hlength := String.length_utf8EncodeChar c
      rw [hc, List.length_cons] at hlength
      have hplace : o + 1 + others.length = o + c.utf8Size := by omega
      -- what is added before the character stands before its first byte; inside there is nothing
      rw [weave, List.flatMap_append, List.flatMap_cons, List.flatMap_cons, hc, List.cons_append,
        List.cons_append, weave, weave_append_of_nil, hplace,
        ih (fun p hp hsome => (hcases p (by omega) hsome).2)]
      intro p hp hlt
      by_contra hsome
      have hle := (hcases p (by omega) (fun hnil => hsome (by rw [hnil, List.flatMap_nil]))).1
      omega

theorem insertAt_perm (text : List Char) (n : Nat) (cs : List Char) :
    (insertAt text n cs).Perm (text ++ cs) := by
  induction cs generalizing n with
  | nil => cases n <;> simp [insertAt]
  | cons c cs ih =>
    cases n with
    | zero => exact List.Perm.refl _
    | succ n => exact ((ih _).cons c).trans List.perm_middle.symm

theorem foldl_insertInto_perm (edits : List Edit) (output : List Char) :
    (edits.foldl insertInto output).Perm (edits.flatMap (·.text.toList) ++ output) := by
  induction edits generalizing output with
  | nil => exact List.Perm.refl _
  | cons e edits ih =>
    rw [List.foldl_cons, List.flatMap_cons]
    refine (ih _).trans (((insertAt_perm _ _ _).append_left _).trans ?_)
    simp only [← List.append_assoc]
    exact List.perm_append_comm.append_right output

theorem utf8ByteSize_ofList (cs : List Char) :
    (String.ofList cs).utf8ByteSize = (cs.flatMap String.utf8EncodeChar).length := by
  rw [← length_utf8Bytes, utf8Bytes_eq, String.toList_ofList]

/-- What the edits make of a source in which each has a place. -/
theorem flatMap_foldl_ordered {edits : List Edit} {cs : List Char}
    (hvalid : ∀ e ∈ edits, isBoundary e.offset cs) :
    ((ordered edits).foldl insertInto cs).flatMap String.utf8EncodeChar =
      weave (fun _ => 1) (fun o => (textsAt edits o).flatMap utf8Bytes) 0
        (cs.flatMap String.utf8EncodeChar) := by
  have hweave : (ordered edits).foldl insertInto (weave Char.utf8Size (fun _ => []) 0 cs) = _ :=
    foldl_insertInto_weave ((pairwise_ordered edits).imp offset_le_of_precedes)
      (fun e he => hvalid e (mem_ordered.mp he)) (fun _ _ _ _ => rfl)
  rw [weave_nothing] at hweave
  rw [hweave, flatMap_weave]
  · apply weave_congr
    intro o _
    rw [← textsAt_eq, List.append_nil, List.flatMap_map, List.flatMap_assoc]
    apply List.flatMap_congr
    intro e _
    rw [utf8Bytes_eq]
  · intro o _ hsome
    -- something is added here, so some edit has its place here
    rw [List.append_nil] at hsome
    obtain ⟨c, hc⟩ := List.exists_mem_of_ne_nil _ hsome
    obtain ⟨e, he, -⟩ := List.mem_flatMap.mp hc
    obtain ⟨he, hoffset⟩ := List.mem_filter.mp (List.mem_reverse.mp he)
    rw [Nat.sub_zero, ← of_decide_eq_true hoffset]
    exact hvalid e (mem_ordered.mp he)

theorem utf8ByteSize_foldl_ordered (edits : List Edit) (cs : List Char) :
    (String.ofList ((ordered edits).foldl insertInto cs)).utf8ByteSize =
      (String.ofList cs).utf8ByteSize + ∑ e ∈ edits.toFinset, e.text.utf8ByteSize := by
  have hperm := (foldl_insertInto_perm (ordered edits) cs).flatMap_right String.utf8EncodeChar
  have hsum : ∑ e ∈ edits.toFinset, e.text.utf8ByteSize =
      ((ordered edits).map fun e => e.text.utf8ByteSize).sum := by
    have hset : edits.toFinset = (ordered edits).toFinset := by
      ext e
      rw [List.mem_toFinset, List.mem_toFinset, mem_ordered]
    rw [hset, List.sum_toFinset _ (nodup_ordered edits)]
  have htexts : (((ordered edits).flatMap (·.text.toList)).flatMap String.utf8EncodeChar).length =
      ((ordered edits).map fun e => e.text.utf8ByteSize).sum := by
    rw [List.flatMap_assoc, List.length_flatMap]
    congr 2
    funext e
    rw [← utf8Bytes_eq, length_utf8Bytes]
  rw [utf8ByteSize_ofList, utf8ByteSize_ofList, hperm.length_eq, List.flatMap_append,
    List.length_append, htexts, hsum, Nat.add_comm]

/-- The first edit in the order of application that has no place is one with the greatest such
offset. -/
theorem isGreatest_of_find?_ordered {edits : List Edit} (isInvalid : Nat → Bool) {e : Edit}
    (h : (ordered edits).find? (isInvalid ·.offset) = some e) :
    IsGreatest { o | (∃ x ∈ edits, x.offset = o) ∧ isInvalid o } e.offset := by
  obtain ⟨hinvalid, before, after, hsplit, hbefore⟩ := List.find?_eq_some_iff_append.mp h
  constructor
  · exact ⟨⟨e, mem_ordered.mp (List.mem_of_find?_eq_some h), rfl⟩, hinvalid⟩
  · rintro o ⟨⟨x, hx, rfl⟩, hxinvalid⟩
    have hpairwise := pairwise_ordered edits
    rw [← mem_ordered] at hx
    rw [hsplit] at hx hpairwise
    rcases List.mem_append.mp hx with hx | hx
    · have hvalid := hbefore x hx
      simp [hxinvalid] at hvalid
    · rcases List.mem_cons.mp hx with rfl | hx
      · exact Nat.le_refl _
      · have htail := (List.pairwise_append.mp hpairwise).2.1
        exact offset_le_of_precedes ((List.pairwise_cons.mp htail).1 x hx)

/-- Either every edit has a place and all are inserted, or the greatest offset without a place is
the error. -/
theorem applyAll_cases (source : String) (edits : List Edit) :
    ((∀ e ∈ edits, isBoundary e.offset source.toList) ∧
      applyAll source edits =
        .ok (String.ofList ((ordered edits).foldl insertInto source.toList))) ∨
    ∃ o, IsGreatest { o | (∃ e ∈ edits, e.offset = o) ∧ !isBoundary o source.toList } o ∧
      applyAll source edits = .error { offset := o, length := source.utf8ByteSize } := by
  unfold applyAll
  dsimp only
  rw [foldlM_apply]
  rcases hfind : (ordered edits).find? (fun e => !isBoundary e.offset source.toList) with _ | e
  · refine Or.inl ⟨fun e he => ?_, by rw [hfind]; rfl⟩
    simpa using List.find?_eq_none.mp hfind e (mem_ordered.mpr he)
  · have hgreatest := isGreatest_of_find?_ordered (fun o => !isBoundary o source.toList) hfind
    exact Or.inr ⟨e.offset, hgreatest, by rw [hfind]; rfl⟩

theorem applyAll_congr (source : String) {edits edits' : List Edit}
    (h : ∀ e, e ∈ edits' ↔ e ∈ edits) : applyAll source edits' = applyAll source edits := by
  unfold applyAll
  rw [ordered_congr h]

end Edit

/-! ## The law -/

/-- Edits are exact insertions of the set of edits. They can be applied just when each offset is a
boundary of characters of the source. Then the result has, at each byte offset of the source, the
distinct texts that go there, the greatest first by their bytes, and nothing else is added. When
they cannot be applied, the error names the greatest offset that is no boundary and the length of
the source. All this depends only on which edits there are. -/
theorem edits_insert_each_distinct_text_once (source : String) (edits : List Edit) :
    ((∃ output, Edit.applyAll source edits = .ok output) ↔
      ∀ e ∈ edits, String.Pos.Raw.IsValid source ⟨e.offset⟩) ∧
    (∀ output, Edit.applyAll source edits = .ok output →
      utf8Bytes output =
        weave (fun _ => 1) (fun o => (Edit.textsAt edits o).flatMap utf8Bytes) 0
          (utf8Bytes source) ∧
      output.utf8ByteSize = source.utf8ByteSize + ∑ e ∈ edits.toFinset, e.text.utf8ByteSize) ∧
    (∀ error, Edit.applyAll source edits = .error error →
      IsGreatest { o | (∃ e ∈ edits, e.offset = o) ∧ ¬ String.Pos.Raw.IsValid source ⟨o⟩ }
        error.offset ∧
      error.length = source.utf8ByteSize) ∧
    ∀ edits', (∀ e, e ∈ edits' ↔ e ∈ edits) →
      Edit.applyAll source edits' = Edit.applyAll source edits := by
  have hboundary : ∀ o, isBoundary o source.toList = true ↔ String.Pos.Raw.IsValid source ⟨o⟩ :=
    fun o => isBoundary_toList_iff
  simp only [← hboundary]
  rcases Edit.applyAll_cases source edits with ⟨hvalid, hok⟩ | ⟨o, hgreatest, herror⟩
  · rw [hok]
    refine ⟨⟨fun _ => hvalid, fun _ => ⟨_, rfl⟩⟩, ?_, ?_, ?_⟩
    · rintro output ⟨⟩
      constructor
      · rw [utf8Bytes_eq, String.toList_ofList, Edit.flatMap_foldl_ordered hvalid, utf8Bytes_eq]
      · rw [Edit.utf8ByteSize_foldl_ordered, String.ofList_toList]
    · rintro error ⟨⟩
    · intro edits' h
      rw [Edit.applyAll_congr source h, hok]
  · obtain ⟨⟨e, he, hoffset⟩, hinvalid⟩ := hgreatest.1
    rw [herror]
    refine ⟨⟨?_, ?_⟩, ?_, ?_, ?_⟩
    · rintro ⟨output, ⟨⟩⟩
    · intro hvalid
      rw [← hoffset] at hinvalid
      simp [hvalid e he] at hinvalid
    · rintro output ⟨⟩
    · rintro error ⟨⟩
      refine ⟨?_, rfl⟩
      simpa using hgreatest
    · intro edits' h
      rw [Edit.applyAll_congr source h, herror]

example : Edit.applyAll "aé" [⟨1, "x"⟩, ⟨3, "y"⟩, ⟨1, "z"⟩, ⟨1, "x"⟩] = .ok "azxéy" := by cbv

example : Edit.applyAll "aé" [⟨0, "x"⟩, ⟨2, "y"⟩] = .error ⟨2, 3⟩ := by cbv

end ReadonlyLint
