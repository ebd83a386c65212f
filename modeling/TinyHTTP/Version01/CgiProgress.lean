import TinyHTTP.Version01.CgiPipes

/-!
# TinyHTTP — version_01: what becomes of a script

The server writes the whole body before it reads, and nobody reads a pipe whose script
has ended. So a request is stuck when the script has filled its pipe before it has read
enough, or waits for an end of its input; and a script that ends before it has
read the body can take the server with it. As in `CgiPipes`, the client stays
connected and reads, so no `send` gets a request stuck or ends the server.

* `killed_iff` — when some run ends in `SIGPIPE`.
* `served_iff` — when every run ends with the answer.
-/

namespace TinyHTTP.Version01

open TinyHTTP.Lib

/-- The script and its body go through two pipes of `cap` bytes: the script ends; it reads the whole
body, or fills its pipe before; and when it has filled its pipe, the rest of the body fits into the
other one. -/
structure Cooperates {Q : Type*} (cap : Nat) (script : Q → Turn Q UInt8) (start : Alone Q UInt8) :
    Prop where
  ends : ∃ e, Halts script start e ∧ (e.unread = [] ∨ cap < e.written.length)
  fits : ∀ d b q, Leads script start d → script d.state = .write b q → d.written.length = cap →
    d.unread.length ≤ cap

section
variable {Q : Type*} {cap : Nat} {script : Q → Turn Q UInt8} {main : Q} {r : Request}
  {contentLength : Int} {c : UInt8} {socket : List UInt8} {others : Nat} {s s' : Cgi Q} {n : Nat}
  {start a e : Alone Q UInt8} {relayed : List UInt8}

-- ---------------------------------------------------------------------------
-- What is in the pipes
-- ---------------------------------------------------------------------------

/-- All of the output is in the pipe while the body is relayed. -/
theorem Cgi.Follows.output_eq (h : s.Follows cap script main n a relayed)
    (hp : s.parent.feeding = true) : s.output = a.written := by
  have hwritten := h.written
  rw [h.feeding hp] at hwritten
  have hunsent : s.parent.unsent s.c = [] := by
    cases heq : s.parent with
    | send =>
      rw [heq] at hp
      cases hp
    | _ => rfl
  rw [hwritten, hunsent]
  rfl

/-- A script that has exited is at its end. -/
theorem Cgi.Follows.halts (h : s.Follows cap script main n a relayed)
    (hc : s.child.hasExited = true) : script a.state = .exit := by
  have hchild := h.child
  cases heq : s.child with
  | forked | running =>
    rw [heq] at hc
    cases hc
  | exited =>
    rw [heq] at hchild
    exact hchild

theorem Cgi.Follows.can_print (h : s.Follows cap script main n a relayed) {q : Q}
    (hc : s.child = .running q) : ¬ (s.parent.closed = true ∧ s.others = 0) := by
  rw [h.open hc]
  exact fun hend => absurd hend.1 nofun

/-- A server at `write` has something to write. -/
theorem Cgi.Follows.unread_write (h : s.Follows cap script main n a relayed) {m : Nat}
    (hp : s.parent = .write m ∨ s.parent = .killed m) :
    a.unread = s.input ++ s.c :: relay m s.c s.socket := by
  rw [h.unread]
  rcases hp with hp | hp
  · rw [hp]
    rfl
  · rw [hp]
    rfl

-- ---------------------------------------------------------------------------
-- SIGPIPE
-- ---------------------------------------------------------------------------

/-- The script ends with something unread, and its output fits into the pipe. -/
def Abandons (cap : Nat) (script : Q → Turn Q UInt8) (start : Alone Q UInt8) : Prop :=
  ∃ e, Halts script start e ∧ e.unread ≠ [] ∧ e.written.length ≤ cap

theorem Cgi.Follows.abandons (h : s.Follows cap script main n a relayed)
    (hleads : Leads script start a) (hc : s.child.hasExited = true) {m : Nat}
    (hp : s.parent = .write m ∨ s.parent = .killed m) : Abandons cap script start := by
  have hfeeding : s.parent.feeding = true := by
    rcases hp with hp | hp
    · rw [hp]
      rfl
    · rw [hp]
      rfl
  refine ⟨a, ⟨hleads, h.halts hc⟩, ?_, ?_⟩
  · rw [h.unread_write hp]
    simp
  · rw [← h.output_eq hfeeding]
    exact h.room.2

/-- The server writes no more than the script waits for. -/
structure Lazy (script : Q → Turn Q UInt8) (s : Cgi Q) : Prop where
  feeding : s.parent.feeding = true
  input : s.input = [] ∨ s.input.length ≤ 1 ∧ ∃ q k, s.child = .running q ∧ script q = .read k

/-- A server that is waited for goes on with the body. -/
theorem Lazy.feed (hcap : 0 < cap) (h : s.Follows cap script main n a relayed)
    (hp : s.parent.feeding = true) (hin : s.input = [])
    (hwait : (∃ q k, s.child = .running q ∧ script q = .read k ∧ 1 < a.unread.length) ∨
      s.child.hasExited = true ∧ 0 < a.unread.length) :
    (∃ m, s.parent = .killed m) ∨ ∃ l s', CgiCase cap script main s l s' ∧ Lazy script s' := by
  have hunread := h.unread
  rw [hin, List.nil_append] at hunread
  have hpos : 0 < a.unread.length := by
    rcases hwait with ⟨q, k, -, -, hlt⟩ | ⟨-, hlt⟩
    · omega
    · exact hlt
  cases heq : s.parent with
  | forked m =>
    rw [heq] at hunread
    cases m with
    | zero =>
      rw [hunread] at hpos
      cases hpos
    | succ m => exact .inr ⟨.parent, _, .status heq, rfl, .inl hin⟩
  | recv m => exact .inr ⟨.parent, _, .recv heq, rfl, .inl hin⟩
  | write m =>
    rcases hwait with ⟨q, k, hc, hq, hlt⟩ | ⟨hc, -⟩
    · have hroom : s.input.length < cap := by
        rw [hin]
        exact hcap
      refine .inr ⟨.parent, _, .write heq hroom ?_, ?_, .inr ⟨?_, q, k, hc, hq⟩⟩
      · rw [hc]
        exact fun hend => absurd hend.1 nofun
      · rw [hunread, heq, Parent.unfed, List.length_cons, relay_length] at hlt
        cases m with
        | zero => omega
        | succ m => rfl
      · rw [hin]
        exact Nat.le_refl 1
    · by_cases ho : s.others = 0
      · exact .inr ⟨.parent, _, .kill heq hc ho, rfl, .inl hin⟩
      · exact .inr ⟨.leave, _, .leave (Nat.pos_of_ne_zero ho), hp, .inl hin⟩
  | killed m => exact .inl ⟨m, rfl⟩
  | copy | send | wait | returned =>
    rw [heq] at hp
    cases hp

/-- The next of the steps that lead to `SIGPIPE`. -/
theorem Lazy.next (hcap : 0 < cap) (hlazy : Lazy script s)
    (h : s.Follows cap script main n a relayed) (he : Halts script a e) (hunread : e.unread ≠ [])
    (hfits : e.written.length ≤ cap) :
    (∃ m, s.parent = .killed m) ∨ ∃ l s', CgiCase cap script main s l s' ∧ Lazy script s' := by
  have hpos : 0 < e.unread.length := List.length_pos_iff.mpr hunread
  have hchild := h.child
  have hinput := hlazy.input
  cases hc : s.child with
  | forked =>
    have hin : s.input = [] := by
      rcases hinput with hin | ⟨-, q, k, hrun, -⟩
      · exact hin
      · cases hc.symm.trans hrun
    exact .inr ⟨.child, _, .exec hc, hlazy.feeding, .inl hin⟩
  | running q =>
    rw [hc] at hchild
    obtain rfl : a.state = q := hchild
    cases hq : script a.state with
    | exit =>
      have hin : s.input = [] := by
        rcases hinput with hin | ⟨-, q, k, hrun, hread⟩
        · exact hin
        · cases hc.symm.trans hrun
          cases hq.symm.trans hread
      exact .inr ⟨.child, _, .exit hc hq, hlazy.feeding, .inl hin⟩
    | write b q' =>
      have hin : s.input = [] := by
        rcases hinput with hin | ⟨-, q, k, hrun, hread⟩
        · exact hin
        · cases hc.symm.trans hrun
          cases hq.symm.trans hread
      have hroom : s.output.length < cap := by
        rw [h.output_eq hlazy.feeding]
        exact Nat.lt_of_lt_of_le (he.lt_written hq) hfits
      exact .inr ⟨.child, _, .print hc hq (h.can_print hc) hroom, hlazy.feeding, .inl hin⟩
    | read k =>
      cases hin : s.input with
      | nil =>
        have hlt := he.unread_lt hq
        exact Lazy.feed hcap h hlazy.feeding hin (.inl ⟨_, k, hc, hq, by omega⟩)
      | cons b input =>
        refine .inr ⟨.child, _, .take hc hq hin, hlazy.feeding, .inl ?_⟩
        rcases hinput with hnil | ⟨hle, -⟩
        · cases hin.symm.trans hnil
        · rw [hin] at hle
          exact List.length_eq_zero_iff.mp (Nat.le_zero.mp (Nat.le_of_succ_le_succ hle))
  | exited =>
    have hexited : s.child.hasExited = true := by
      rw [hc]
      rfl
    have hin : s.input = [] := by
      rcases hinput with hin | ⟨-, q, k, hrun, -⟩
      · exact hin
      · cases hc.symm.trans hrun
    obtain rfl : e = a := he.1.of_exit (h.halts hexited)
    exact Lazy.feed hcap h hlazy.feeding hin (.inr ⟨hexited, hpos⟩)

-- ---------------------------------------------------------------------------
-- The steps that are left
-- ---------------------------------------------------------------------------

/-- A state of a run whose script is `k` turns from its end, and the number of steps to come. -/
def Cgi.Rank (cap : Nat) (script : Q → Turn Q UInt8) (main : Q) (start : Alone Q UInt8) (s : Cgi Q)
    (steps : Nat) : Prop :=
  ∃ n a relayed k, s.Follows cap script main n a relayed ∧ Leads script start a ∧
    HaltsIn script k a ∧ steps = 3 * k + s.pending

/-- Every step is one less. -/
theorem Cgi.Rank.next {steps : Nat} (h : s.Rank cap script main start steps) {l : CgiLabel}
    (hs : s.step cap script main l = some s') :
    ∃ m < steps, s'.Rank cap script main start m := by
  obtain ⟨n, a, relayed, k, hfollows, hleads, hhalts, rfl⟩ := h
  obtain ⟨a', relayed', hfollows', ⟨rfl, hless⟩ | ⟨hturn, hle⟩⟩ := hfollows.next hs
  · exact ⟨_, by omega, n, a', relayed', k, hfollows', hleads, hhalts, rfl⟩
  · obtain ⟨k, rfl, hhalts'⟩ := hhalts.next hturn
    exact ⟨_, by omega, n, a', relayed', k, hfollows', hleads.turn hturn, hhalts', rfl⟩

/-- A script that ends makes every run end. -/
theorem rank_start (cap others : Nat)
    (hends : Halts script (Cgi.alone main r contentLength c socket) e) :
    ∃ steps, (Cgi.start r contentLength c socket others).Rank cap script main
      (Cgi.alone main r contentLength c socket) steps := by
  obtain ⟨k, hk⟩ := hends.haltsIn
  exact ⟨_, _, _, [], k, follows_start cap script main r contentLength c socket others, .refl _, hk,
    rfl⟩

/-- A run that ends in `SIGPIPE`. -/
theorem Abandons.killed (hcap : 0 < cap) (others : Nat)
    (h : Abandons cap script (Cgi.alone main r contentLength c socket)) :
    ∃ s m, From (Cgi.step cap script main) (Cgi.start r contentLength c socket others) s ∧
      s.parent = .killed m := by
  obtain ⟨e, hends, hunread, hfits⟩ := h
  obtain ⟨steps, hrank⟩ := rank_start cap others hends
  have hlazy : Lazy script (Cgi.start (Q := Q) r contentLength c socket others) :=
    ⟨rfl, .inl rfl⟩
  have hnext (s : Cgi Q) (steps : Nat) (hlazy : Lazy script s)
      (hrank : s.Rank cap script main (Cgi.alone main r contentLength c socket) steps) :
      (∃ m, s.parent = .killed m) ∨ ∃ l s', s.step cap script main l = some s' ∧ Lazy script s' ∧
        ∃ m < steps, s'.Rank cap script main (Cgi.alone main r contentLength c socket) m := by
    have hrank' := hrank
    obtain ⟨n, a, relayed, k, hfollows, hleads, -, -⟩ := hrank'
    rcases hlazy.next hcap hfollows (hends.from hleads) hunread hfits with
      hkilled | ⟨l, s', hcase, hlazy'⟩
    · exact .inl hkilled
    · have hs := cgi_step_iff.mpr hcase
      exact .inr ⟨l, s', hs, hlazy', hrank.next hs⟩
  obtain ⟨t, ht, m, hm⟩ := From.of_strategy hnext hlazy hrank
  exact ⟨t, m, ht, hm⟩

/-- **When the server can be killed by `SIGPIPE`**: when the script ends, its output fits into the
pipe, and it has left some of the body. -/
theorem killed_iff (hcap : 0 < cap) :
    (∃ s m, From (Cgi.step cap script main) (Cgi.start r contentLength c socket others) s ∧
      s.parent = .killed m) ↔
    Abandons cap script (Cgi.alone main r contentLength c socket) := by
  refine ⟨?_, fun h => h.killed hcap others⟩
  rintro ⟨s, m, hs, hp⟩
  obtain ⟨a, relayed, hleads, hfollows⟩ := follows_from hs
  exact hfollows.abandons hleads (hfollows.closed (by rw [hp]; rfl)) (.inr hp)

/-- A script that ends at once: the file cannot be executed. -/
def noScript : Unit → Turn Unit UInt8 := fun _ => .exit

/-- A form that is sent to a page. -/
theorem killed_iff_page : ∃ s m,
    From (Cgi.step 65536 noScript ()) (Cgi.start formRequest 1 0 (bytes "a") 0) s ∧
      s.parent = .killed m :=
  (killed_iff (by decide)).mpr ⟨_, ⟨.refl _, rfl⟩, by decide +kernel, Nat.zero_le _⟩

-- ---------------------------------------------------------------------------
-- No run is stuck
-- ---------------------------------------------------------------------------

theorem Cooperates.not_abandons (h : Cooperates cap script start) :
    ¬ Abandons cap script start := by
  rintro ⟨e', he', hunread, hfits⟩
  obtain ⟨e, he, hall⟩ := h.ends
  obtain rfl := he.unique he'
  rcases hall with hnil | hlong
  · exact hunread hnil
  · omega

/-- A server whose script runs can go on, but for a full pipe or an empty one. -/
theorem Cgi.Follows.parent_can (h : s.Follows cap script main n a relayed) {q : Q}
    (hc : s.child = .running q) (hin : ∀ m, s.parent = .write m → s.input.length < cap)
    (hout : s.parent = .copy → s.output ≠ []) : ∃ s', CgiCase cap script main s .parent s' := by
  have hopen := h.open hc
  cases hp : s.parent with
  | forked m => exact ⟨_, .status hp⟩
  | recv m => exact ⟨_, .recv hp⟩
  | write m =>
    refine ⟨_, .write hp (hin m hp) ?_⟩
    rw [hc]
    exact fun hend => absurd hend.1 nofun
  | copy =>
    cases hnil : s.output with
    | nil => exact absurd hnil (hout hp)
    | cons b output => exact ⟨_, .read hp hnil⟩
  | send => exact ⟨_, .send hp⟩
  | wait | returned | killed =>
    rw [hp] at hopen
    cases hopen

/-- A script that cooperates leaves a step to be made. -/
theorem Cooperates.can_step (hcap : 0 < cap) (h : Cooperates cap script start)
    (hf : s.Follows cap script main n a relayed) (hleads : Leads script start a) :
    s.parent = .returned ∨ ∃ l s', CgiCase cap script main s l s' := by
  have hchild := hf.child
  cases hc : s.child with
  | forked => exact .inr ⟨.child, _, .exec hc⟩
  | running q =>
    rw [hc] at hchild
    obtain rfl : a.state = q := hchild
    cases hq : script a.state with
    | exit => exact .inr ⟨.child, _, .exit hc hq⟩
    | write b q' =>
      by_cases hroom : s.output.length < cap
      · exact .inr ⟨.child, _, .print hc hq (hf.can_print hc) hroom⟩
      · -- the pipe from the script is full: the rest of the body fits into the other one
        have hfull : s.output.length = cap := Nat.le_antisymm hf.room.2 (Nat.le_of_not_lt hroom)
        obtain ⟨s', hs'⟩ := hf.parent_can hc
          (fun m hp => by
            have hwritten := hf.output_eq (by rw [hp]; rfl)
            have hle := h.fits a b q' hleads hq (by rw [← hwritten, hfull])
            rw [hf.unread_write (.inl hp), List.length_append, List.length_cons] at hle
            omega)
          (fun _ hnil => by
            rw [hnil] at hfull
            exact Nat.ne_of_lt hcap hfull)
        exact .inr ⟨.parent, s', hs'⟩
    | read k =>
      cases hin : s.input with
      | cons b input => exact .inr ⟨.child, _, .take hc hq hin⟩
      | nil =>
        -- the pipe to the script is empty: there is more of the body
        obtain ⟨e, he, -⟩ := h.ends
        have hlt := (he.from hleads).unread_lt hq
        obtain ⟨s', hs'⟩ := hf.parent_can hc
          (fun m _ => by
            rw [hin]
            exact hcap)
          (fun hp _ => by
            rw [hf.unread, hin, hp] at hlt
            cases hlt)
        exact .inr ⟨.parent, s', hs'⟩
  | exited =>
    have hexited : s.child.hasExited = true := by
      rw [hc]
      rfl
    -- the script has not left any of the body
    have hno {m : Nat} (hp : s.parent = .write m ∨ s.parent = .killed m) : False :=
      h.not_abandons (hf.abandons hleads hexited hp)
    cases hp : s.parent with
    | forked m => exact .inr ⟨.parent, _, .status hp⟩
    | recv m => exact .inr ⟨.parent, _, .recv hp⟩
    | write m => exact (hno (.inl hp)).elim
    | copy =>
      cases hout : s.output with
      | cons b output => exact .inr ⟨.parent, _, .read hp hout⟩
      | nil =>
        by_cases ho : s.others = 0
        · exact .inr ⟨.parent, _, .eof hp hout hexited ho⟩
        · exact .inr ⟨.leave, _, .leave (Nat.pos_of_ne_zero ho)⟩
    | send => exact .inr ⟨.parent, _, .send hp⟩
    | wait => exact .inr ⟨.parent, _, .reap hp hexited⟩
    | returned => exact .inl rfl
    | killed m => exact (hno (.inr hp)).elim

/-- A server that relays the body goes on with it while it does not fit into the pipes. -/
theorem Cgi.Follows.keeps_feeding (h : s.Follows cap script main n a relayed)
    (hover : a.written.length ≤ cap → cap < a.unread.length) (hp : s.parent.feeding = true)
    {l : CgiLabel} (hs : CgiCase cap script main s l s') : s'.parent.feeding = true := by
  have hmore : cap < a.unread.length := hover (by rw [← h.output_eq hp]; exact h.room.2)
  have hunread := h.unread
  have hroom := h.room.1
  cases hs with
  | @status m heq =>
    cases m with
    | zero =>
      rw [hunread, heq, Parent.unfed, relay, List.append_nil] at hmore
      omega
    | succ m => rfl
  | @write m heq hless halive =>
    cases m with
    | zero =>
      rw [hunread, heq, Parent.unfed, relay, List.length_append, List.length_singleton] at hmore
      omega
    | succ m => rfl
  | recv | kill => rfl
  | read heq | eof heq | send heq | reap heq =>
    rw [heq] at hp
    cases hp
  | exec | exit | print | take | broken | starve | leave => exact hp

/-- Before the script has read enough, its pipe is full. -/
theorem written_unread_of_full {d : Alone Q UInt8} (hd : Leads script start d) {b : UInt8} {q : Q}
    (hturn : script d.state = .write b q) (hfull : d.written.length = cap)
    (hmore : cap < d.unread.length) (ha : Leads script start a) (hle : a.written.length ≤ cap) :
    cap < a.unread.length := by
  rcases ha.comparable hd with had | hda
  · exact Nat.lt_of_lt_of_le hmore had.unread_le
  · rcases hda.first (advance_write hturn) with rfl | hlater
    · exact hmore
    · have hlonger := hlater.written_le
      rw [List.length_append, List.length_singleton] at hlonger
      omega

/-- A body that does not fit is relayed for ever. -/
theorem feeding_of_full {d : Alone Q UInt8}
    (hd : Leads script (Cgi.alone main r contentLength c socket) d) {b : UInt8} {q : Q}
    (hturn : script d.state = .write b q) (hfull : d.written.length = cap)
    (hmore : cap < d.unread.length)
    (h : From (Cgi.step cap script main) (Cgi.start r contentLength c socket others) s) :
    s.parent.feeding = true := by
  induction h with
  | init heq =>
    subst heq
    rfl
  | step l hfrom _ hs ih =>
    obtain ⟨a, relayed, hleads, hfollows⟩ := follows_from hfrom
    exact hfollows.keeps_feeding
      (fun hle => written_unread_of_full hd hturn hfull hmore hleads hle) ih (cgi_step_iff.mp hs)

/-- The server has returned for good. -/
theorem returned_stable (s : Cgi Q) (l : CgiLabel) (s' : Cgi Q) (hp : s.parent = .returned)
    (hs : s.step cap script main l = some s') : s'.parent = .returned := by
  cases cgi_step_iff.mp hs with
  | status heq | recv heq | kill heq | write heq | read heq | eof heq | send heq | reap heq =>
    cases hp.symm.trans heq
  | exec | exit | print | take | broken | starve | leave => exact hp

/-- Nothing happens behind `SIGPIPE`. -/
theorem Cgi.Follows.stuck (h : s.Follows cap script main n a relayed) {m : Nat}
    (hp : s.parent = .killed m) (l : CgiLabel) : s.step cap script main l = none := by
  have hexited := h.closed (by rw [hp]; rfl)
  refine Option.eq_none_iff_forall_ne_some.mpr fun s' hs => ?_
  cases cgi_step_iff.mp hs with
  | status heq | recv heq | kill heq | write heq | read heq | eof heq | send heq | reap heq =>
    cases hp.symm.trans heq
  | exec hc | exit hc | print hc | take hc | broken hc | starve hc =>
    rw [hc] at hexited
    cases hexited
  | leave ho => exact absurd (h.killed m hp) (Nat.ne_of_gt ho)

/-- A request that cannot but be answered has a script that cooperates. -/
theorem cooperates_of_served (hcap : 0 < cap)
    (h : Inevitable (Cgi.step cap script main) (fun s => s.parent = .returned)
      (Cgi.start r contentLength c socket others)) :
    Cooperates cap script (Cgi.alone main r contentLength c socket) := by
  obtain ⟨t, ht, hreturned⟩ := h.reaches
  obtain ⟨e, relayed, hleads, hfollows⟩ := follows_from ht
  have hends : Halts script (Cgi.alone main r contentLength c socket) e :=
    ⟨hleads, hfollows.halts (hfollows.closed (by rw [hreturned]; rfl))⟩
  refine ⟨⟨e, hends, ?_⟩, fun d b q hd hturn hfull => Nat.le_of_not_lt fun hmore => ?_⟩
  · by_contra hno
    obtain ⟨hunread, hshort⟩ := not_or.mp hno
    obtain ⟨u, m, hu, hkilled⟩ := Abandons.killed hcap others
      ⟨e, hends, hunread, Nat.le_of_not_lt hshort⟩
    obtain ⟨a, relayed, -, hfollows⟩ := follows_from hu
    cases hkilled.symm.trans (h.not_stuck returned_stable hu (hfollows.stuck hkilled))
  · have hfeeding := feeding_of_full hd hturn hfull hmore ht
    rw [hreturned] at hfeeding
    cases hfeeding

/-- **When a script is served.** Every run ends with the answer if and only if the script and its
body go through the two pipes. -/
theorem served_iff (hcap : 0 < cap) :
    Inevitable (Cgi.step cap script main) (fun s => s.parent = .returned)
      (Cgi.start r contentLength c socket others) ↔
    Cooperates cap script (Cgi.alone main r contentLength c socket) := by
  refine ⟨cooperates_of_served hcap, fun h => ?_⟩
  obtain ⟨e, hends, -⟩ := h.ends
  obtain ⟨steps, hrank⟩ := rank_start cap others hends
  refine .of_rank (fun s steps hrank => ?_) hrank
  have hrank' := hrank
  obtain ⟨n, a, relayed, k, hfollows, hleads, -, -⟩ := hrank'
  rcases h.can_step hcap hfollows hleads with hreturned | ⟨l, s', hcase⟩
  · exact .inl hreturned
  · exact .inr ⟨⟨l, s', cgi_step_iff.mpr hcase⟩, fun l s' hs => hrank.next hs⟩

/-- One byte there and back. -/
theorem served_iff_echo : Inevitable (Cgi.step 1 echoByte none) (fun s => s.parent = .returned)
    (Cgi.start formRequest 1 0 (bytes "a") 1) := by
  have hone : advance echoByte (Cgi.alone none formRequest 1 0 (bytes "a")) =
      some ⟨some (some 97), [], []⟩ := by
    decide +kernel
  have htwo : advance echoByte ⟨some (some 97), [], []⟩ = some ⟨some none, [], [97]⟩ := rfl
  refine (served_iff (by decide)).mpr ⟨⟨⟨some none, [], [97]⟩, ⟨?_, rfl⟩, .inl rfl⟩, ?_⟩
  · exact ((Leads.refl _).turn hone).turn htwo
  · intro d b q hd hturn hfull
    -- the only byte is written into an empty pipe
    rcases hd.first hone with rfl | hd
    · cases hfull
    rcases hd.first htwo with rfl | hd
    · cases hfull
    rw [hd.of_exit rfl] at hturn
    cases hturn

end

end TinyHTTP.Version01
