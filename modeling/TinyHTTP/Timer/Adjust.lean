import TinyHTTP.Timer.Pending

/-!
# TinyHTTP — `adjust_timer` and a fresh insertion

`adjust_timer` does nothing where the follower expires later, goes on from the new head
where the timer was the head, and from the follower elsewhere. In a sorted list, and for
an expiry that is not lowered, this is the same as taking the timer out and adding it
again (`adjustTimer_eq_add`).
-/

namespace TinyHTTP.Timer

open TinyHTTP.Lib

namespace SortTimerLst

variable {α : Type}

/-- `timer->expire = e; adjust_timer(timer)` -/
def adjustTo (l : SortTimerLst α) (timer : Addr) (e : Int) : Option (SortTimerLst α) := do
  let l ← l.setExpire timer e
  l.adjustTimer (some timer)

/-- `timer->expire = e`, the timer taken out of the list, and `add_timer(timer)`. -/
def reAdd (l : SortTimerLst α) (timer : Addr) (e : Int) : Option (SortTimerLst α) := do
  let l ← l.setExpire timer e
  let l ← l.unlinkTimer timer
  l.addTimer (some timer)

section
variable {l : SortTimerLst α} {pre post : List Addr} {t : Addr} {e : Int}

theorem adjustTo_linked (h : Linked l (pre ++ t :: post)) :
    ∃ l', l.adjustTo t e = some l' ∧
      Linked l' (pre ++ insertByKey (Function.update l.expireOf t e) t post) := by
  have hlive : t ∈ l.live := h.live t (by simp)
  obtain ⟨l', hl', hlk, -, -⟩ := adjustTimer_spec (h.withExpire t e)
  rw [withExpire_expireOf] at hlk
  refine ⟨l', ?_, hlk⟩
  rw [adjustTo, setExpire, if_pos hlive]
  exact hl'

/-- The links that `unlinkTimer` leaves in the timer do no harm: it does not come to stand before
the timers that stood before it. -/
theorem reAdd_linked (h : Linked l (pre ++ t :: post))
    (hpre : ∀ b ∈ pre, l.expireOf b ≤ e) :
    ∃ l', l.reAdd t e = some l' ∧
      Linked l' (insertByKey (Function.update l.expireOf t e) t (pre ++ post)) := by
  have hlive : t ∈ l.live := h.live t (by simp)
  have hnt : t ∉ pre ++ post := fun hm => h.ne_of_mem hm rfl
  obtain ⟨l₁, hl₁, hlk₁, hsd₁, hlv₁, hprev, hnext⟩ := unlinkTimer_spec (h.withExpire t e)
  have hexp : l₁.expireOf = Function.update l.expireOf t e := by
    rw [hsd₁.expireOf, withExpire_expireOf]
  have hlive₁ : t ∈ l₁.live := by
    rw [hlv₁]
    exact hlive
  have hnull : (∀ head ∈ (pre ++ post).head?, l₁.expireOf t < l₁.expireOf head) →
      (l₁.node t).prev = none := by
    intro hlt
    cases pre with
    | nil => exact hprev rfl
    | cons b pre =>
      -- the head expires no later than the timer
      have hbt : b ≠ t := h.ne_of_mem (List.mem_append_left _ (List.mem_cons_self ..))
      have hb := hlt b rfl
      rw [hexp, Function.update_self, Function.update_of_ne hbt] at hb
      exact absurd (hpre b (List.mem_cons_self ..)) (not_le.mpr hb)
  obtain ⟨l', hl', hlk, -, -⟩ := addTimer_relinked hlk₁ hlive₁ hnt
    (fun he => hnext (List.append_eq_nil_iff.mp he).2) hnull
  rw [hexp] at hlk
  refine ⟨l', ?_, hlk⟩
  rw [reAdd, setExpire, if_pos hlive]
  simp only [Option.bind_eq_bind, Option.bind_some, hl₁]
  exact hl'

end

/-- **`adjust_timer` is a fresh insertion.** In a sorted list, for a linked timer and an expiry that
is not lowered, `adjust_timer` leaves the same nodes in the same order as taking the timer out and
adding it: the timer stands after the others that expire no later, and before those that expire
later, and the others keep their order. -/
theorem adjustTimer_eq_add {l : SortTimerLst α} {xs : List Addr} {t : Addr} {e : Int}
    (h : Linked l xs) (hsorted : SortedByKey l.expireOf xs) (ht : t ∈ xs)
    (hle : l.expireOf t ≤ e) :
    ∃ l₁ l₂ pre post, l.adjustTo t e = some l₁ ∧ l.reAdd t e = some l₂ ∧
      Linked l₁ (pre ++ t :: post) ∧ Linked l₂ (pre ++ t :: post) ∧ pre ++ post = xs.erase t ∧
      (∀ b ∈ pre, l.expireOf b ≤ e) ∧ ∀ b ∈ post, e < l.expireOf b := by
  obtain ⟨front, rear, rfl⟩ := List.append_of_mem ht
  have hne : ∀ b ∈ front ++ rear, b ≠ t := fun b hb => h.ne_of_mem hb
  have herase : (front ++ t :: rear).erase t = front ++ rear := by
    have hnt : t ∉ front := fun hm => hne t (List.mem_append_left _ hm) rfl
    rw [List.erase_append_right _ hnt, List.erase_cons_head]
  have hfront : ∀ b ∈ front, l.expireOf b ≤ e := by
    intro b hb
    exact ((List.pairwise_append.mp hsorted).2.2 b hb t (List.mem_cons_self ..)).trans hle
  have hupdate : ∀ b ∈ front ++ rear, Function.update l.expireOf t e b = l.expireOf b :=
    fun b hb => Function.update_of_ne (hne b hb) ..
  obtain ⟨l₁, hl₁, hlk₁⟩ := adjustTo_linked (e := e) h
  obtain ⟨l₂, hl₂, hlk₂⟩ := reAdd_linked h hfront
  have hrest : SortedByKey (Function.update l.expireOf t e) (front ++ rear) := by
    have hsub : (front ++ rear).Sublist (front ++ t :: rear) :=
      (List.sublist_cons_self t rear).append_left front
    refine (hsorted.sublist hsub).imp_of_mem ?_
    intro a b ha hb hab
    rw [hupdate a ha, hupdate b hb]
    exact hab
  obtain ⟨pre, post, hins, hsplit, hpre, hpost⟩ := insertByKey_split _ (a := t) hrest
  have hsame : front ++ insertByKey (Function.update l.expireOf t e) t rear = pre ++ t :: post := by
    rw [← hins, insertByKey_append]
    intro b hb
    rw [hupdate b (List.mem_append_left _ hb), Function.update_self]
    exact hfront b hb
  rw [hsame] at hlk₁
  rw [hins] at hlk₂
  refine ⟨l₁, l₂, pre, post, hl₁, hl₂, hlk₁, hlk₂, hsplit.trans herase.symm, ?_, ?_⟩
  · intro b hb
    have hb' := hpre b hb
    rw [hupdate b (hsplit ▸ List.mem_append_left _ hb), Function.update_self] at hb'
    exact hb'
  · intro b hb
    have hb' := hpost b hb
    rw [hupdate b (hsplit ▸ List.mem_append_right _ hb), Function.update_self] at hb'
    exact hb'

/-- Two timers, the first one set to the expiry of the second. -/
theorem adjustTimer_eq_add_tie : ∃ (l l₁ l₂ : SortTimerLst Unit) (pre post : List Addr),
    l.adjustTo 1 20 = some l₁ ∧ l.reAdd 1 20 = some l₂ ∧ Linked l₁ (pre ++ 1 :: post) ∧
      Linked l₂ (pre ++ 1 :: post) ∧ pre ++ post = [2] ∧ (∀ b ∈ pre, l.expireOf b ≤ 20) ∧
      ∀ b ∈ post, 20 < l.expireOf b := by
  have hlinked : Linked (⟨fun a => if a = 1 then ⟨10, (), none, some 2⟩ else ⟨20, (), some 1, none⟩,
      [1, 2], some 1, some 2⟩ : SortTimerLst Unit) [1, 2] :=
    ⟨by decide, by decide, rfl, fun _ => rfl, rfl, rfl, rfl, rfl, trivial⟩
  obtain ⟨l₁, l₂, pre, post, h⟩ := adjustTimer_eq_add (t := 1) (e := 20) hlinked
    (by decide) (by decide) (by decide)
  exact ⟨_, l₁, l₂, pre, post, h⟩

end SortTimerLst

end TinyHTTP.Timer
