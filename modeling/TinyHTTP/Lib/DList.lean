import Mathlib.Data.List.Sort

/-!
# TinyHTTP library — doubly linked segments

A doubly linked list is given by two link functions over addresses, `nx` and
`pv`. `Seg nx pv p xs q` says that the cells `xs`, in this order, form a
segment: consecutive cells point at each other, the first cell's back link is
`p` and the last cell's forward link is `q`. The lemmas below are what pointer
code needs: splitting a segment, the frame rule for links outside it, and the
three ways such code edits a list (insert after a cell, remove a cell, detach
the first cell).

Nothing here mentions a node type: a model supplies `nx` and `pv` as the
projections of its own memory.
-/

namespace TinyHTTP.Lib

variable {A : Type*}

/-- The cells `xs` form a doubly linked segment entered from `p` and left to `q`. -/
def Seg (nx pv : A → Option A) : Option A → List A → Option A → Prop
  | _, [], _ => True
  | p, a :: rest, q => pv a = p ∧ nx a = rest.head?.or q ∧ Seg nx pv (some a) rest q

@[simp] theorem seg_nil (nx pv : A → Option A) (p q : Option A) : Seg nx pv p [] q := trivial

@[simp] theorem seg_cons {nx pv : A → Option A} {p q : Option A} {a : A} {rest : List A} :
    Seg nx pv p (a :: rest) q ↔
      pv a = p ∧ nx a = rest.head?.or q ∧ Seg nx pv (some a) rest q := Iff.rfl

/-- A segment splits anywhere; the link crossing the cut is shared. -/
theorem seg_append {nx pv : A → Option A} {q : Option A} {ys : List A} :
    ∀ {xs : List A} {p : Option A}, Seg nx pv p (xs ++ ys) q ↔
      Seg nx pv p xs (ys.head?.or q) ∧ Seg nx pv (xs.getLast?.or p) ys q
  | [], p => by simp
  | [a], p => by simp [and_assoc]
  | a :: b :: rest, p => by
    have ih : Seg nx pv (some a) ((b :: rest) ++ ys) q ↔
        Seg nx pv (some a) (b :: rest) (ys.head?.or q) ∧
          Seg nx pv ((b :: rest).getLast?.or (some a)) ys q := seg_append
    have hlast : ((b :: rest).getLast?.or (some a)) = ((a :: b :: rest).getLast?.or p) := by
      rw [List.getLast?_cons_cons]
      cases h : (b :: rest).getLast? with
      | none => simp at h
      | some z => rfl
    rw [List.cons_append, seg_cons, seg_cons, ih, hlast]
    simp [and_assoc]

/-- Frame rule: a segment only depends on the links of its own cells. -/
theorem seg_congr {nx pv nx' pv' : A → Option A} {q : Option A} :
    ∀ {xs : List A} {p : Option A}, (∀ a ∈ xs, nx' a = nx a) → (∀ a ∈ xs, pv' a = pv a) →
      Seg nx pv p xs q → Seg nx' pv' p xs q
  | [], _, _, _, _ => trivial
  | a :: rest, p, hn, hp, h => by
    obtain ⟨h1, h2, h3⟩ := h
    refine ⟨(hp a (by simp)).trans h1, (hn a (by simp)).trans h2, ?_⟩
    exact seg_congr (fun b hb => hn b (List.mem_cons_of_mem _ hb))
      (fun b hb => hp b (List.mem_cons_of_mem _ hb)) h3

/-- The forward link of the cell at index `i` is the cell at `i + 1`, or `q` at the end. -/
theorem Seg.next_eq {nx pv : A → Option A} {q : Option A} :
    ∀ {xs : List A} {p : Option A}, Seg nx pv p xs q →
      ∀ (i : Nat) (hi : i < xs.length), nx xs[i] = xs[i + 1]?.or q
  | a :: rest, p, h, 0, _ => by
    rw [List.getElem_cons_zero, h.2.1, List.getElem?_cons_succ, List.head?_eq_getElem?]
  | a :: rest, p, h, i + 1, hi => by
    have := Seg.next_eq h.2.2 i (by simpa using hi)
    simpa using this

/-- The back link of the cell at index `i + 1` is the cell at `i`. -/
theorem Seg.prev_eq {nx pv : A → Option A} {q : Option A} :
    ∀ {xs : List A} {p : Option A}, Seg nx pv p xs q →
      ∀ (i : Nat) (hi : i + 1 < xs.length), pv xs[i + 1] = xs[i]?
  | a :: b :: rest, p, h, 0, _ => by simpa using h.2.2.1
  | a :: rest, p, h, i + 1, hi => by
    have := Seg.prev_eq h.2.2 i (by simpa using hi)
    simpa using this

/-- The back link of the first cell is the segment's entry. -/
theorem Seg.prev_head {nx pv : A → Option A} {p q : Option A} {xs : List A}
    (h : Seg nx pv p xs q) : ∀ a ∈ xs.head?, pv a = p := by
  cases xs with
  | nil => simp
  | cons b rest =>
    intro a ha
    obtain rfl : b = a := by simpa using ha
    exact h.1

/-- Relinking the entry: only the first cell's back link has to follow. -/
theorem seg_reenter {nx pv nx' pv' : A → Option A} {p p' q : Option A} {xs : List A}
    (hnd : xs.Nodup) (hn : ∀ a ∈ xs, nx' a = nx a)
    (hp : ∀ a ∈ xs, a ∉ xs.head? → pv' a = pv a) (hhead : ∀ a ∈ xs.head?, pv' a = p')
    (h : Seg nx pv p xs q) : Seg nx' pv' p' xs q := by
  cases xs with
  | nil => trivial
  | cons a rest =>
    obtain ⟨-, h2, h3⟩ := h
    have hrest : a ∉ rest := (List.nodup_cons.mp hnd).1
    refine ⟨hhead a rfl, (hn a (by simp)).trans h2, ?_⟩
    refine seg_congr (fun b hb => hn b (List.mem_cons_of_mem _ hb)) (fun b hb => ?_) h3
    refine hp b (List.mem_cons_of_mem _ hb) fun hab => hrest ?_
    obtain rfl : a = b := by simpa using hab
    exact hb

/-- Relinking the exit: only the last cell's forward link has to follow. -/
theorem seg_reexit {nx pv nx' pv' : A → Option A} {p q q' : Option A} {xs : List A} {a : A}
    (hn : ∀ b ∈ xs, nx' b = nx b) (hna : nx' a = q')
    (hp : ∀ b ∈ xs ++ [a], pv' b = pv b)
    (h : Seg nx pv p (xs ++ [a]) q) : Seg nx' pv' p (xs ++ [a]) q' := by
  rw [seg_append] at h ⊢
  obtain ⟨h1, h2⟩ := h
  refine ⟨?_, ?_⟩
  · have h1' : Seg nx pv p xs (some a) := by simpa using h1
    have := seg_congr hn (fun b hb => hp b (List.mem_append_left _ hb)) h1'
    simpa using this
  · obtain ⟨h3, -, -⟩ := h2
    exact ⟨(hp a (by simp)).trans h3, by simpa using hna, trivial⟩

/-- **Insertion after a cell.** The new cell `t` goes between `a` and what followed it; the
links of `a`, of `t` and the back link of the follower are the only ones that change. -/
theorem seg_insert_after {nx pv nx' pv' : A → Option A} {p q : Option A} {xs ys : List A}
    {a t : A} (hnd : (xs ++ a :: ys).Nodup)
    (hna : nx' a = some t) (hnt : nx' t = ys.head?.or q)
    (hn : ∀ b ∈ xs ++ a :: ys, b ≠ a → nx' b = nx b)
    (hpt : pv' t = some a) (hpy : ∀ y ∈ ys.head?, pv' y = some t)
    (hp : ∀ b ∈ xs ++ a :: ys, b ∉ ys.head? → pv' b = pv b)
    (h : Seg nx pv p (xs ++ a :: ys) q) : Seg nx' pv' p (xs ++ a :: t :: ys) q := by
  obtain ⟨hxs, hays, hdisj⟩ := List.nodup_append.mp hnd
  obtain ⟨hay, hys⟩ := List.nodup_cons.mp hays
  have hhead : ∀ b ∈ ys.head?, b ∈ ys := fun b hb => List.mem_of_mem_head? hb
  rw [seg_append] at h ⊢
  obtain ⟨h1, h2, h3, h4⟩ := h
  refine ⟨?_, ?_, by simpa using hna, hpt, hnt, ?_⟩
  · -- the cells before `a` keep both links
    refine seg_congr (fun b hb => hn b (by simp [hb]) ?_) (fun b hb => hp b (by simp [hb]) ?_) h1
    · exact hdisj b hb a (by simp)
    · exact fun hby => hdisj b hb b (by simp [hhead b hby]) rfl
  · exact (hp a (by simp) fun hay' => hay (hhead a hay')).trans h2
  · refine seg_reenter hys (fun b hb => hn b (by simp [hb]) ?_) (fun b hb hb' => ?_) hpy h4
    · exact fun hba => hay (hba ▸ hb)
    · exact hp b (by simp [hb]) hb'

/-- **Removal of a cell.** Its neighbours are linked to each other and nothing else changes. -/
theorem seg_remove {nx pv nx' pv' : A → Option A} {p q : Option A} {xs ys : List A} {a : A}
    (hnd : (xs ++ a :: ys).Nodup)
    (hnx : ∀ b ∈ xs.getLast?, nx' b = ys.head?.or q)
    (hn : ∀ b ∈ xs ++ ys, b ∉ xs.getLast? → nx' b = nx b)
    (hpy : ∀ y ∈ ys.head?, pv' y = xs.getLast?.or p)
    (hp : ∀ b ∈ xs ++ ys, b ∉ ys.head? → pv' b = pv b)
    (h : Seg nx pv p (xs ++ a :: ys) q) : Seg nx' pv' p (xs ++ ys) q := by
  obtain ⟨hxs, hays, hdisj⟩ := List.nodup_append.mp hnd
  obtain ⟨hay, hys⟩ := List.nodup_cons.mp hays
  have hsep : ∀ b ∈ xs, b ∉ ys := fun b hb hb' => hdisj b hb b (by simp [hb']) rfl
  rw [seg_append] at h ⊢
  obtain ⟨h1, -, -, h4⟩ := h
  refine ⟨?_, ?_⟩
  · -- the part before: only its last cell's forward link moves
    rcases List.eq_nil_or_concat xs with rfl | ⟨zs, z, rfl⟩
    · trivial
    · rw [List.concat_eq_append] at *
      refine seg_reexit (fun b hb => hn b (by simp [hb]) ?_) (hnx z (by simp)) (fun b hb => ?_) h1
      · intro hbz
        obtain rfl : z = b := by simpa using hbz
        exact (List.nodup_append.mp hxs).2.2 z hb z (by simp) rfl
      · exact hp b (by simp at hb ⊢; tauto) fun hb' => hsep b hb (List.mem_of_mem_head? hb')
  · refine seg_reenter hys (fun b hb => hn b (by simp [hb]) ?_) (fun b hb hb' => ?_) hpy h4
    · exact fun hbx => hsep b (List.mem_of_getLast? hbx) hb
    · exact hp b (by simp [hb]) hb'

/-! ## Inserting by rank

Linked-list code that keeps its cells ordered by a key walks past every cell
whose key is not greater than the new one's. This is `List.orderedInsert` for
the strict order on keys, and it keeps a list sorted for the non-strict one. -/

section Rank

variable {K : Type*} [LinearOrder K] (key : A → K)

/-- The list with `a` put before the first cell of a strictly greater key. -/
abbrev insertByKey (a : A) (xs : List A) : List A :=
  xs.orderedInsert (fun x y => key x < key y) a

/-- The cells are in non-decreasing key order. -/
abbrev SortedByKey (xs : List A) : Prop := xs.Pairwise fun x y => key x ≤ key y

theorem sortedByKey_insert {a : A} {xs : List A} (h : SortedByKey key xs) :
    SortedByKey key (insertByKey key a xs) := by
  induction xs with
  | nil => simp [SortedByKey]
  | cons b rest ih =>
    obtain ⟨hb, hrest⟩ := List.pairwise_cons.mp h
    rw [insertByKey, List.orderedInsert_cons]
    split
    · rename_i hlt
      refine List.pairwise_cons.mpr ⟨fun c hc => ?_, h⟩
      rcases List.mem_cons.mp hc with rfl | hc
      · exact le_of_lt hlt
      · exact le_of_lt (lt_of_lt_of_le hlt (hb c hc))
    · rename_i hge
      refine List.pairwise_cons.mpr ⟨fun c hc => ?_, ih hrest⟩
      rcases (List.mem_orderedInsert _).mp hc with rfl | hc
      · exact not_lt.mp hge
      · exact hb c hc

/-- Inserting a key that is at least every key of a front part leaves that part in front. -/
theorem insertByKey_append {a : A} {xs ys : List A} (h : ∀ b ∈ xs, key b ≤ key a) :
    insertByKey key a (xs ++ ys) = xs ++ insertByKey key a ys := by
  induction xs with
  | nil => rfl
  | cons b rest ih =>
    have hb : ¬ key a < key b := not_lt.mpr (h b (by simp))
    rw [List.cons_append, insertByKey, List.orderedInsert_cons, if_neg hb, List.cons_append]
    exact congrArg _ (ih fun c hc => h c (List.mem_cons_of_mem _ hc))

/-- Where a cell is inserted in a sorted list. -/
theorem insertByKey_split {a : A} {xs : List A} (h : SortedByKey key xs) :
    ∃ pre post, insertByKey key a xs = pre ++ a :: post ∧ pre ++ post = xs ∧
      (∀ b ∈ pre, key b ≤ key a) ∧ ∀ b ∈ post, key a < key b := by
  induction xs with
  | nil => exact ⟨[], [], rfl, rfl, by simp, by simp⟩
  | cons b rest ih =>
    obtain ⟨hb, hrest⟩ := List.pairwise_cons.mp h
    rw [insertByKey, List.orderedInsert_cons]
    by_cases hlt : key a < key b
    · refine ⟨[], b :: rest, if_pos hlt, rfl, by simp, fun c hc => ?_⟩
      rcases List.mem_cons.mp hc with rfl | hc
      · exact hlt
      · exact lt_of_lt_of_le hlt (hb c hc)
    · obtain ⟨pre, post, hins, hsplit, hpre, hpost⟩ := ih hrest
      refine ⟨b :: pre, post, ?_, congrArg _ hsplit, fun c hc => ?_, hpost⟩
      · rw [if_neg hlt]
        exact congrArg _ hins
      · rcases List.mem_cons.mp hc with rfl | hc
        · exact not_lt.mp hlt
        · exact hpre c hc

/-- In a sorted list the leading keys up to a bound are all the keys up to it. -/
theorem mem_takeWhile_key {xs : List A} (h : SortedByKey key xs) (bound : K) (a : A) :
    a ∈ xs.takeWhile (fun b => key b ≤ bound) ↔ a ∈ xs ∧ key a ≤ bound := by
  induction xs with
  | nil => simp
  | cons b rest ih =>
    obtain ⟨hb, hrest⟩ := List.pairwise_cons.mp h
    by_cases hle : key b ≤ bound
    · rw [List.takeWhile_cons, if_pos (by simpa using hle), List.mem_cons, List.mem_cons, ih hrest]
      constructor
      · rintro (rfl | ⟨ha, hka⟩)
        · exact ⟨Or.inl rfl, hle⟩
        · exact ⟨Or.inr ha, hka⟩
      · rintro ⟨rfl | ha, hka⟩
        · exact Or.inl rfl
        · exact Or.inr ⟨ha, hka⟩
    · -- everything from here on is above the bound
      rw [List.takeWhile_cons, if_neg (by simpa using hle)]
      constructor
      · intro ha
        simp at ha
      · rintro ⟨ha, hka⟩
        rcases List.mem_cons.mp ha with rfl | ha
        · exact absurd hka hle
        · exact absurd (le_trans (hb a ha) hka) hle

end Rank

end TinyHTTP.Lib
