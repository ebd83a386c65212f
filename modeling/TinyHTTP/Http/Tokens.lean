import TinyHTTP.Http.Parser

/-!
# TinyHTTP — the grammar of the request line

A request line as its parts (`Tokens`), split off by scans for blanks, and the
path that its target stands for.

* `Rest.scanned` — the scans find the parts of a line that has a derivation.
* `derives_unique` — a line has at most one derivation.
-/

namespace TinyHTTP.Http

open TinyHTTP.Lib

-- ---------------------------------------------------------------------------
-- The grammar
-- ---------------------------------------------------------------------------

/-- A space or a tab. -/
abbrev blank (b : UInt8) : Bool := blanks.contains b

/-- Two texts are the same but for case. -/
abbrev EqIgnoreCase (a b : List UInt8) : Prop := a.map lower = b.map lower

/-- The parts of a request line. -/
structure Tokens where
  method : List UInt8
  gap : List UInt8
  target : List UInt8
  gap' : List UInt8
  version : List UInt8

def Tokens.text (t : Tokens) : List UInt8 := t.method ++ t.gap ++ t.target ++ t.gap' ++ t.version

/-- The line `l` is `M W+ T W+ HTTP/1.1`, with these parts. -/
structure Derives (l : List UInt8) (t : Tokens) : Prop where
  text : t.text = l
  method : EqIgnoreCase t.method (bytes "GET") ∨ EqIgnoreCase t.method (bytes "POST")
  gap : t.gap ≠ [] ∧ ∀ b ∈ t.gap, blank b
  target : t.target ≠ [] ∧ ∀ b ∈ t.target, ¬ blank b
  gap' : t.gap' ≠ [] ∧ ∀ b ∈ t.gap', blank b
  version : EqIgnoreCase t.version (bytes "HTTP/1.1")

/-- The text from the first slash on. -/
def fromSlash (h : List UInt8) : Option (List UInt8) :=
  match h.dropWhile fun b => !(b == slash) with
  | [] => none
  | u => some u

abbrev StartsWith (scheme h : List UInt8) : Prop := EqIgnoreCase (h.take scheme.length) scheme

/-- The target without the scheme and all that stands before the next slash. -/
def stripped (scheme h : List UInt8) : Option (List UInt8) :=
  if StartsWith scheme h then fromSlash (h.drop scheme.length) else some h

/-- The path of a target. -/
def urlPath (target : List UInt8) : Option (List UInt8) :=
  if StartsWith (bytes "http://") target then stripped (bytes "http://") target
  else stripped (bytes "https://") target

/-- The target is `http://` and a host, with no slash behind it. -/
def Unhosted (target : List UInt8) : Prop :=
  StartsWith (bytes "http://") target ∧ fromSlash (target.drop 7) = none

/-- The page that a path stands for. -/
def pageOf (path : List UInt8) : List UInt8 :=
  if path = [slash] then bytes "/judge.html" else path

-- ---------------------------------------------------------------------------
-- One derivation
-- ---------------------------------------------------------------------------

/-- Where a scan stops. -/
theorem span_append {α : Type} {p : α → Bool} {a b : List α} (ha : ∀ x ∈ a, p x)
    (hb : ∀ x, b.head? = some x → ¬ p x) :
    (a ++ b).takeWhile p = a ∧ (a ++ b).dropWhile p = b := by
  rw [List.takeWhile_append_of_pos ha, List.dropWhile_append_of_pos ha]
  cases b with
  | nil => simp
  | cons x b =>
    have hx := hb x rfl
    rw [List.takeWhile_cons_of_neg hx, List.dropWhile_cons_of_neg hx, List.append_nil]
    exact ⟨rfl, rfl⟩

/-- A word with no blank among its letters, compared without regard to case. -/
theorem not_blank_of_eqIgnoreCase {a t : List UInt8} (h : EqIgnoreCase a t)
    (ht : ∀ c ∈ t.map lower, ¬ blank c) : ∀ b ∈ a, ¬ blank b := by
  intro b hb hblank
  have hmem : lower b ∈ t.map lower := h ▸ List.mem_map_of_mem hb
  have hlower : lower b = b := by
    have : b = 32 ∨ b = 9 := by simpa [blanks] using hblank
    rcases this with rfl | rfl <;> decide
  exact ht _ hmem (hlower.symm ▸ hblank)

theorem get_not_blank : ∀ c ∈ (bytes "GET").map lower, ¬ blank c := by decide +kernel

theorem post_not_blank : ∀ c ∈ (bytes "POST").map lower, ¬ blank c := by decide +kernel

theorem version_not_blank : ∀ c ∈ (bytes "HTTP/1.1").map lower, ¬ blank c := by decide +kernel

theorem Derives.method_not_blank {l : List UInt8} {t : Tokens} (h : Derives l t) :
    ∀ b ∈ t.method, ¬ blank b := by
  rcases h.method with hm | hm
  · exact not_blank_of_eqIgnoreCase hm get_not_blank
  · exact not_blank_of_eqIgnoreCase hm post_not_blank

/-- The target, the blanks behind it and the version, behind the blank that ends the method. -/
structure Rest (r : List UInt8) (gap target gap' version : List UInt8) : Prop where
  text : gap ++ target ++ gap' ++ version = r
  gap : ∀ b ∈ gap, blank b
  target : target ≠ [] ∧ ∀ b ∈ target, ¬ blank b
  gap' : gap' ≠ [] ∧ ∀ b ∈ gap', blank b
  version : EqIgnoreCase version (bytes "HTTP/1.1")

theorem head?_mem {α : Type} {p : α → Prop} {l : List α} (hl : ∀ b ∈ l, p b) :
    ∀ b, l.head? = some b → p b := fun b hb => hl b (List.mem_of_mem_head? hb)

/-- What the scans of `parseTarget` find. -/
structure Scanned (r : List UInt8) (gap target gap' version : List UInt8) : Prop where
  take_gap : r.takeWhile blank = gap
  drop_gap : r.dropWhile blank = target ++ gap' ++ version
  take_target : (r.dropWhile blank).takeWhile (fun b => !blank b) = target
  drop_target : (r.dropWhile blank).dropWhile (fun b => !blank b) = gap' ++ version
  take_gap' : (gap' ++ version).takeWhile blank = gap'
  drop_gap' : (gap' ++ version).dropWhile blank = version

theorem Rest.scanned {r gap target gap' version : List UInt8}
    (h : Rest r gap target gap' version) : Scanned r gap target gap' version := by
  obtain ⟨htext, hgap, ⟨htne, htarget⟩, ⟨hgne, hgap'⟩, hversion⟩ := h
  have hvhead := head?_mem (not_blank_of_eqIgnoreCase hversion version_not_blank)
  obtain ⟨h₅, h₆⟩ := span_append (p := blank) hgap' hvhead
  have hghead : ∀ b, (gap' ++ version).head? = some b → ¬ (!blank b) = true := by
    intro b hb
    rw [List.head?_append_of_ne_nil _ hgne] at hb
    simpa using head?_mem hgap' b hb
  obtain ⟨h₃, h₄⟩ := span_append (p := fun b => !blank b) (a := target)
    (fun b hb => by simpa using htarget b hb) hghead
  have hthead : ∀ b, (target ++ (gap' ++ version)).head? = some b → ¬ blank b := by
    intro b hb
    rw [List.head?_append_of_ne_nil _ htne] at hb
    exact head?_mem htarget b hb
  obtain ⟨h₁, h₂⟩ := span_append (p := blank) hgap hthead
  have hr : gap ++ (target ++ (gap' ++ version)) = r := by
    rw [← htext]
    simp only [List.append_assoc]
  rw [hr] at h₁ h₂
  refine ⟨h₁, ?_, ?_, ?_, h₅, h₆⟩
  · rw [h₂, List.append_assoc]
  · rw [h₂, h₃]
  · rw [h₂, h₄]

theorem rest_unique {r gap target gap' version gap₁ target₁ gap₁' version₁ : List UInt8}
    (h : Rest r gap target gap' version) (h₁ : Rest r gap₁ target₁ gap₁' version₁) :
    gap = gap₁ ∧ target = target₁ ∧ gap' = gap₁' ∧ version = version₁ := by
  obtain ⟨a₁, -, a₃, a₄, a₅, a₆⟩ := h.scanned
  obtain ⟨b₁, -, b₃, b₄, b₅, b₆⟩ := h₁.scanned
  have hmid := a₄.symm.trans b₄
  refine ⟨a₁.symm.trans b₁, a₃.symm.trans b₃, ?_, ?_⟩
  · rw [← a₅, hmid, b₅]
  · rw [← a₆, hmid, b₆]

/-- The method, the blank that ends it, and the rest. -/
theorem Derives.split {l : List UInt8} {t : Tokens} (h : Derives l t) :
    ∃ b gap, t.gap = b :: gap ∧ blank b ∧ l.takeWhile (fun b => !blank b) = t.method ∧
      l.dropWhile (fun b => !blank b) = b :: (gap ++ t.target ++ t.gap' ++ t.version) ∧
      Rest (gap ++ t.target ++ t.gap' ++ t.version) gap t.target t.gap' t.version := by
  obtain ⟨hgne, hgap⟩ := h.gap
  obtain ⟨b, gap, hbg⟩ := List.exists_cons_of_ne_nil hgne
  rw [hbg] at hgap
  have hb : blank b := hgap b (List.mem_cons_self ..)
  have htext : t.method ++ b :: (gap ++ t.target ++ t.gap' ++ t.version) = l := by
    rw [← h.text, Tokens.text, hbg]
    simp only [List.append_assoc, List.cons_append]
  obtain ⟨h₁, h₂⟩ := span_append (p := fun b => !blank b) (a := t.method)
    (b := b :: (gap ++ t.target ++ t.gap' ++ t.version))
    (fun b hb => by simpa using h.method_not_blank b hb)
    (fun c hc => by
      obtain rfl : b = c := Option.some.inj hc
      simpa using hb)
  rw [htext] at h₁ h₂
  exact ⟨b, gap, hbg, hb, h₁, h₂, rfl, fun c hc => hgap c (List.mem_cons_of_mem _ hc), h.target,
    h.gap', h.version⟩

/-- **One derivation.** -/
theorem derives_unique {l : List UInt8} {t t' : Tokens} (h : Derives l t) (h' : Derives l t') :
    t = t' := by
  obtain ⟨b, gap, hgap, -, hm, hd, hrest⟩ := h.split
  obtain ⟨b', gap', hgap', -, hm', hd', hrest'⟩ := h'.split
  obtain ⟨rfl, hr⟩ := List.cons.inj (hd.symm.trans hd')
  rw [← hr] at hrest'
  obtain ⟨rfl, h₂, h₃, h₄⟩ := rest_unique hrest hrest'
  obtain ⟨m, g, t, g', v⟩ := t
  obtain ⟨m', g₁, t', g₁', v'⟩ := t'
  simp only at *
  rw [← hm, ← hm', hgap, hgap', h₂, h₃, h₄]

end TinyHTTP.Http
