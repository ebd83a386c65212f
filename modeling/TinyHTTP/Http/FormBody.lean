import TinyHTTP.Http.KeepAlive
import TinyHTTP.Http.PageRequest

/-!
# TinyHTTP — the body of a form

Behind the head the parser is in `CHECK_STATE_CONTENT`, and whatever `parse_line` finds in
the body, the head is left alone. So when the body is there, as long as no cut inside it
gives the scan room to move, `do_request` has the page, the name and the password.

* `processReadLoop_past` — in the body, nothing in front of it changes.
* `awaits_step`, `awaits_last` — the segments of a form.
-/

namespace TinyHTTP.Http

open TinyHTTP.Lib

-- ---------------------------------------------------------------------------
-- Behind the head
-- ---------------------------------------------------------------------------

/-- The parser is in the body, and done with the first `n` bytes. -/
structure Past (n : Nat) (s : Parser) : Prop where
  state : s.checkState = .content
  start : n ≤ s.startLine
  checked : n ≤ s.checkedIdx
  checked_le : s.checkedIdx ≤ s.readIdx
  noCr : s.NoCr
  length : 0 ≤ s.contentLength

/-- The first `n` bytes are left alone, and what has been understood. -/
structure LeavesHead (n : Nat) (s s' : Parser) : Prop where
  same : SameBelow n s.readBuf s'.readBuf
  url : s'.url = s.url
  linger : s'.linger = s.linger
  cgi : s'.cgi = s.cgi

section
variable {n : Nat} {s : Parser}

theorem LeavesHead.refl (n : Nat) (s : Parser) : LeavesHead n s s :=
  ⟨SameBelow.refl n s.readBuf, rfl, rfl, rfl⟩

/-- What leaves the head alone, one after the other. -/
theorem LeavesHead.trans {s' s'' : Parser} (h : LeavesHead n s s') (h' : LeavesHead n s' s'') :
    LeavesHead n s s'' where
  same := fun j hj => (h'.same j hj).trans (h.same j hj)
  url := h'.url.trans h.url
  linger := h'.linger.trans h.linger
  cgi := h'.cgi.trans h.cgi

/-- Behind the head, `parse_line` stays there and leaves the head alone. -/
theorem Past.parseLine (h : Past n s) :
    Past n (parseLine s).2 ∧ LeavesHead n s (parseLine s).2 := by
  have hscanned {c : Nat} (hle : s.checkedIdx ≤ c) (hc : c ≤ s.readIdx) (hclean : s.CleanTo c) :
      Past n { s with checkedIdx := c } ∧ LeavesHead n s { s with checkedIdx := c } :=
    ⟨⟨h.state, h.start, Nat.le_trans h.checked hle, hc, NoCr.scanned h.noCr hle hclean, h.length⟩,
      ⟨SameBelow.refl n s.readBuf, rfl, rfl, rfl⟩⟩
  have hchecked := h.checked
  cases parseLine_cases h.checked_le with
  | ok c hle hc hclean hcr hlf =>
    rw [parseLine_ok hle hc hclean hcr hlf]
    refine ⟨⟨h.state, h.start, ?_, hc, ?_, h.length⟩, ?_, rfl, rfl, rfl⟩
    · show n ≤ c + 2
      omega
    · intro _
      show Function.update (Function.update s.readBuf c 0) (c + 1) 0 (c + 2 - 1) ≠ cr
      rw [show c + 2 - 1 = c + 1 by omega, Function.update_self]
      decide
    · intro j hj
      show Function.update (Function.update s.readBuf c 0) (c + 1) 0 j = s.readBuf j
      rw [Function.update_of_ne (by omega), Function.update_of_ne (by omega)]
  | bad c hle hc hclean hbad =>
    rw [parseLine_bad hle hc hclean h.noCr hbad]
    exact hscanned hle (Nat.le_of_lt hc) hclean
  | «open» c hle hc hclean hend =>
    rw [parseLine_open hle hc hclean hend]
    exact hscanned hle hc hclean

/-- So does a turn of the loop, as long as it goes on. -/
theorem Past.handleLine (h : Past n s) {t : Turn} (ht : handleLine s = .ok t) :
    LeavesHead n s t.parser ∧ ∀ st s', t = .again st s' → Past n s' := by
  have hnext : Past n s.nextLine :=
    ⟨h.state, h.checked, h.checked, h.checked_le, h.noCr, h.length⟩
  unfold Http.handleLine at ht
  rw [h.state] at ht
  obtain ⟨⟨ret, s₁⟩, hparse, rfl⟩ := map_ok.mp ht
  unfold parseContent at hparse
  split at hparse
  · cases hparse
  split at hparse
  · dsimp only at hparse
    split at hparse
    · -- the NUL is behind the body
      cases hparse
      refine ⟨⟨fun j hj => ?_, rfl, rfl, rfl⟩, fun st s' heq => by cases heq⟩
      have hstart := h.start
      have hlength : 0 ≤ s.nextLine.contentLength := h.length
      exact Function.update_of_ne (by omega) ..
    · cases hparse
  · cases hparse
    refine ⟨⟨SameBelow.refl n s.readBuf, rfl, rfl, rfl⟩, fun st s' heq => ?_⟩
    cases heq
    exact hnext

/-- **In the body, nothing in front of it changes**; induction on the turns. -/
theorem processReadLoop_past {fuel : Nat} {st : LineStatus} {s' : Parser} {r : ReadEnd}
    (h : Past n s) (hr : processReadLoop fuel st s = .ok (r, s')) : LeavesHead n s s' := by
  induction fuel generalizing st s with
  | zero =>
    cases hr
    exact .refl n _
  | succ fuel ih =>
    rw [processReadLoop, bind_ok] at hr
    obtain ⟨t, ht, hr⟩ := hr
    have hturn : LeavesHead n s t.parser ∧ ∀ st s', t = .again st s' → Past n s' := by
      unfold turn at ht
      split at ht
      · exact h.handleLine ht
      · obtain ⟨hpast, hleaves⟩ := h.parseLine
        generalize Http.parseLine s = q at ht hpast hleaves
        obtain ⟨lineStatus, s₁⟩ := q
        split at ht
        · rename_i heq
          obtain ⟨-, rfl⟩ := Prod.mk.inj heq
          obtain ⟨hleaves', hagain⟩ := hpast.handleLine ht
          exact ⟨hleaves.trans hleaves', hagain⟩
        · rename_i heq
          obtain ⟨-, rfl⟩ := Prod.mk.inj heq
          cases ht
          exact ⟨hleaves, fun st s' heq => by cases heq⟩
    cases t with
    | stop r' s₁ =>
      cases hr
      exact hturn.1
    | again st' s₁ => exact hturn.1.trans (ih (hturn.2 st' s₁ rfl) hr)

end

/-- So the target of the request is still what it was. -/
theorem Asks.leavesHead {s s' : Parser} {u n : Nat} {page : List UInt8} {keep post : Bool}
    (ha : Asks s u page keep post) (hlt : u + page.length < n) (h : LeavesHead n s s') :
    Asks s' u page keep post :=
  ha.below hlt h.same h.url h.cgi (h.linger.trans ha.linger)

theorem Ready.past {body : List UInt8} {base k : Nat} {s : Parser} (h : Ready body base k s) :
    Past base s where
  state := h.state
  start := h.start.ge
  checked := h.checked.ge
  checked_le := by
    rw [h.checked, h.read]
    exact Nat.le_add_right ..
  noCr := h.noCr
  length := by
    rw [h.length]
    exact Int.natCast_nonneg _

-- ---------------------------------------------------------------------------
-- Segments
-- ---------------------------------------------------------------------------

/-- The page and the pointer to it are in the head. -/
structure Form.Holds (f : Form) (s : Parser) (u : Nat) : Prop where
  asks : Asks s u f.page f.keeps true
  url_le : u + 12 ≤ f.request.head.length
  page_lt : u + f.page.length < f.request.head.length

/-- The parser waits for the rest of the form, of which it has `n` bytes. -/
inductive Awaits (f : Form) (n : Nat) (p : Parser) : Prop
  | head (hn : n < f.request.head.length) (hinv : HeadInv p) (hread : p.readIdx = n)
      (t : Parser) (u : Nat)
      (hrun : headRun (p.deliver (f.request.head.drop n)) = .ok (.content, t))
      (hat : AtBody t f.request.head.length f.request.body.length) (hholds : f.Holds t u)
  | body (hn : f.request.head.length ≤ n) (u : Nat)
      (hready : Ready f.request.body f.request.head.length (n - f.request.head.length) p)
      (hholds : f.Holds p u)

section
variable {f : Form} {n m : Nat} {p : Parser}

/-- A new connection has received nothing of the form. -/
theorem awaits_init (f : Form) (s₀ : Parser) : Awaits f 0 s₀.init := by
  obtain ⟨t, u, hrun, hat, hasks, hu⟩ := headRun_form f s₀
  have hnul := hat.inv.strings u (.inl hasks.url)
  rw [hat.checked] at hnul
  exact .head (by omega) (headInv_init s₀) rfl t u hrun hat ⟨hasks, hu, hasks.page_lt hnul⟩

theorem Awaits.readIdx (h : Awaits f n p) : p.readIdx = n := by
  cases h with
  | head _ _ hread => exact hread
  | body hn u hready _ =>
    have hread := hready.read
    omega

theorem Form.length_bytes (f : Form) :
    f.request.bytes.length = f.request.head.length + f.request.body.length :=
  List.length_append

/-- A segment that ends inside the head. -/
theorem awaits_head (h : Awaits f n p) (hlt : n + m < f.request.head.length) :
    ∃ p', processRead (p.deliver ((f.request.bytes.drop n).take m)) =
        .ok (.code .noRequest, p') ∧ Awaits f (n + m) p' := by
  have hroom := f.room
  have hbytes := f.length_bytes
  cases h with
  | body hn => omega
  | head _ hinv hread t u hrun hat hholds =>
    have hseg : (f.request.bytes.drop n).take m = (f.request.head.drop n).take m := by
      rw [Request.bytes, List.drop_append_of_le_length (by omega), List.take_append_of_le_length]
      rw [List.length_drop]
      omega
    have hlen : ((f.request.head.drop n).take m).length = m := by
      rw [List.length_take, List.length_drop]
      omega
    have hrest : (f.request.head.drop (n + m)).length = f.request.head.length - (n + m) :=
      List.length_drop
    have hsplit : f.request.head.drop n =
        (f.request.head.drop n).take m ++ f.request.head.drop (n + m) := by
      rw [← List.drop_drop, List.take_append_drop]
    rw [hsplit, deliver_append] at hrun
    rw [hseg]
    have hread₁ : (p.deliver ((f.request.head.drop n).take m)).readIdx = n + m := by
      show p.readIdx + _ = _
      omega
    have hinv₁ : HeadInv (p.deliver ((f.request.head.drop n).take m)) := hinv.deliver (by omega)
    have hres := headRun_deliver hinv₁ (f.request.head.drop (n + m)) (by omega)
    generalize hr : headRun (p.deliver ((f.request.head.drop n).take m)) = res at hres
    cases hres with
    | fault e he =>
      rw [he] at hrun
      cases hrun
    | done e s' hinv' he hread' hdone =>
      -- the body cannot start before the head is complete
      rw [hdone, Except.ok.injEq, Prod.mk.injEq] at hrun
      obtain ⟨-, rfl⟩ := hrun
      have hchecked : s'.checkedIdx = f.request.head.length := hat.checked
      have hle := hinv'.checked_le
      omega
    | wait s' hinv' hstate' hread' hrun' =>
      rw [hrun'] at hrun
      exact ⟨s', processRead_stop hinv₁ hr,
        .head hlt hinv' (hread'.trans hread₁) t u hrun hat hholds⟩

/-- A segment that reaches the body: what is left to do is the loop on the body. -/
theorem awaits_body (h : Awaits f n p) (hm : f.request.head.length ≤ n + m)
    (hle : n + m ≤ f.request.bytes.length) :
    ∃ q u fuel, 2 ≤ fuel ∧ processRead (p.deliver ((f.request.bytes.drop n).take m)) =
        processReadLoop fuel .lineOk q ∧
      Ready f.request.body f.request.head.length (n + m - f.request.head.length) q ∧
      f.Holds q u := by
  have hroom := f.room
  have hbytes := f.length_bytes
  have hdeliver {q : Parser} {u : Nat} (hholds : f.Holds q u) (bs : List UInt8)
      (hread : f.request.head.length ≤ q.readIdx) : f.Holds (q.deliver bs) u :=
    ⟨hholds.asks.deliver (Nat.lt_of_lt_of_le hholds.page_lt hread) bs, hholds.url_le,
      hholds.page_lt⟩
  cases h with
  | head hn hinv hread t u hrun hat hholds =>
    have hseg : (f.request.bytes.drop n).take m =
        f.request.head.drop n ++ (f.request.body.drop 0).take (n + m - f.request.head.length) := by
      rw [Request.bytes, List.drop_append_of_le_length (by omega), List.take_append,
        List.length_drop, List.take_of_length_le (by rw [List.length_drop]; omega), List.drop_zero]
      congr 2
      omega
    have hlen : (f.request.head.drop n).length = f.request.head.length - n := List.length_drop
    have hlen' : ((f.request.body.drop 0).take (n + m - f.request.head.length)).length =
        n + m - f.request.head.length := by
      rw [List.length_take, List.length_drop]
      omega
    have hread₁ : (p.deliver (f.request.head.drop n)).readIdx = f.request.head.length := by
      show p.readIdx + _ = _
      omega
    have hinv₁ : HeadInv (p.deliver (f.request.head.drop n)) := hinv.deliver (by omega)
    have hfit : (p.deliver (f.request.head.drop n)).readIdx +
        ((f.request.body.drop 0).take (n + m - f.request.head.length)).length ≤
          readBufferSize := by omega
    have hinv₂ := hinv₁.deliver hfit
    have hres := headRun_deliver hinv₁ _ hfit
    rw [hrun] at hres
    cases hres with
    | done _ _ _ _ _ hdone =>
      have hloop := processReadLoop_head hinv₂ (Nat.le_refl _)
      rw [hdone] at hloop
      cases hloop with
      | content _ fuel _ _ hfuel hproc =>
        refine ⟨t.deliver ((f.request.body.drop 0).take (n + m - f.request.head.length)), u, fuel,
          by omega, ?_, ?_, hdeliver hholds _ hat.read.ge⟩
        · rw [hseg, deliver_append]
          exact hproc
        · have hready := hat.ready.deliver (n + m - f.request.head.length) (by omega)
          rwa [Nat.zero_add] at hready
  | body hn u hready hholds =>
    have hseg : (f.request.bytes.drop n).take m =
        (f.request.body.drop (n - f.request.head.length)).take m := by
      rw [Request.bytes, List.drop_append, List.drop_eq_nil_of_le hn, List.nil_append]
    rw [hseg]
    have hread := hready.read
    have hready' := hready.deliver m (by omega)
    refine ⟨p.deliver ((f.request.body.drop (n - f.request.head.length)).take m), u, _, ?_, rfl, ?_,
      hdeliver hholds _ (by omega)⟩
    · omega
    · rwa [show n + m - f.request.head.length = n - f.request.head.length + m by omega]

/-- **A segment that is not the last**, cut where the scan of the body stays. -/
theorem awaits_step (h : Awaits f n p) (hlt : n + m < f.request.bytes.length)
    (hharm : f.request.head.length < n + m →
      Harmless f.request.body (n + m - f.request.head.length)) :
    ∃ p', processRead (p.deliver ((f.request.bytes.drop n).take m)) =
        .ok (.code .noRequest, p') ∧ Awaits f (n + m) p' := by
  have hroom := f.room
  have hbytes := f.length_bytes
  by_cases hm : n + m < f.request.head.length
  · exact awaits_head h hm
  · obtain ⟨q, u, fuel, hfuel, hproc, hready, hholds⟩ :=
      awaits_body (m := m) h (by omega) (by omega)
    obtain ⟨p', hloop, hready'⟩ := ready_wait (by omega) hready (by omega) (by
      by_cases hzero : n + m - f.request.head.length = 0
      · exact .inl hzero
      · exact .inr (hharm (by omega))) hfuel
    have hleaves := processReadLoop_past hready.past hloop
    exact ⟨p', hproc.trans hloop, .body (by omega) u hready'
      ⟨hholds.asks.leavesHead hholds.page_lt hleaves, hholds.url_le, hholds.page_lt⟩⟩

/-- What `do_request` finds when all of the form is there. -/
structure Form.Complete (f : Form) (t : Parser) (u : Nat) : Prop where
  holds : f.Holds t u
  string : t.string = some f.request.head.length
  body : slice t.readBuf f.request.head.length f.request.body.length = f.request.body
  nul : t.readBuf (f.request.head.length + f.request.body.length) = 0

/-- **The last segment.** -/
theorem awaits_last (h : Awaits f n p) (hlt : n < f.request.bytes.length) :
    ∃ t u, processRead (p.deliver (f.request.bytes.drop n)) = .ok (.doRequest, t) ∧
      f.Complete t u := by
  have hroom := f.room
  have hbytes := f.length_bytes
  have hall : (f.request.bytes.drop n).take (f.request.bytes.length - n) =
      f.request.bytes.drop n := List.take_of_length_le (by rw [List.length_drop])
  obtain ⟨q, u, fuel, hfuel, hproc, hready, hholds⟩ :=
    awaits_body (m := f.request.bytes.length - n) h (by omega) (by omega)
  rw [hall] at hproc
  rw [show n + (f.request.bytes.length - n) - f.request.head.length = f.request.body.length by
    omega] at hready
  obtain ⟨t, hloop, -, hstring, hbody, hnul⟩ := ready_done (by omega) hready hfuel
  have hleaves := processReadLoop_past hready.past hloop
  exact ⟨t, u, hproc.trans hloop, ⟨hholds.asks.leavesHead hholds.page_lt hleaves, hholds.url_le,
    hholds.page_lt⟩, hstring, hbody, hnul⟩

end

end TinyHTTP.Http
