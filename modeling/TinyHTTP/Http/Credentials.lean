import TinyHTTP.Http.BodyBounds
import TinyHTTP.Http.Conn

/-!
# TinyHTTP — the name and the password in a body

`do_request` copies a name and a password out of `m_string`, with two loops that
look for a `&` and for a NUL and count nothing, and for a registration puts both
into a text of 200 bytes. The loops are run here over the body that
`parse_content` has admitted, with its NUL, and over nothing else
(`credentialsWithin`).

* `copyWithin_iff` — what a loop copies, and when it stays within the body and
  within its array.
* `credentials_inBounds_iff` — the bodies on which all accesses are in bounds.
-/

namespace TinyHTTP.Http

open TinyHTTP.Lib

-- ---------------------------------------------------------------------------
-- One loop
-- ---------------------------------------------------------------------------

/-- `for (; m_string[i] != stop; ++i)` copying into an array with `room` bytes left, with `size`
the first index that may not be read. -/
def copyWithin (buf : Mem) (stop : UInt8) (size : Nat) : Nat → Nat → Except Fault (List UInt8)
  | 0, _ => .error .outOfBounds
  | room + 1, i =>
    if i ≥ size then .error .outOfBounds
    else if buf i = stop then .ok []
    else (copyWithin buf stop size room (i + 1)).map (buf i :: ·)

theorem copyField_eq (buf : Mem) (stop : UInt8) (room i : Nat) :
    copyField buf stop room i = copyWithin buf stop readBufferSize room i := by
  induction room generalizing i with
  | zero => rfl
  | succ room ih => rw [copyField, copyWithin, ih]

/-- **One loop.** It copies up to the first `stop` of the bytes that it may read, if there is one
and the array holds what stands before it. -/
theorem copyWithin_iff {buf : Mem} {stop : UInt8} {size room i : Nat} {field : List UInt8} :
    copyWithin buf stop size room i = .ok field ↔
      field = (slice buf i (size - i)).takeWhile (fun b => b ≠ stop) ∧
        field.length < size - i ∧ field.length < room := by
  induction room generalizing i field with
  | zero => simp [copyWithin]
  | succ room ih =>
    rw [copyWithin]
    by_cases hi : i ≥ size
    · rw [if_pos hi]
      have h0 : size - i = 0 := by omega
      simp [h0]
    rw [if_neg hi]
    obtain ⟨n, hn⟩ : ∃ n, size - i = n + 1 := ⟨size - i - 1, by omega⟩
    have hn' : size - (i + 1) = n := by omega
    rw [hn, slice_succ]
    by_cases hb : buf i = stop
    · rw [if_pos hb, List.takeWhile_cons_of_neg (by simpa using hb)]
      constructor
      · intro h
        cases h
        exact ⟨rfl, Nat.succ_pos _, Nat.succ_pos _⟩
      · rintro ⟨rfl, -, -⟩
        rfl
    · rw [if_neg hb, List.takeWhile_cons_of_pos (by simpa using hb)]
      constructor
      · intro h
        obtain ⟨rest, hrest, rfl⟩ := map_ok.mp h
        obtain ⟨hrest, h₁, h₂⟩ := ih.mp hrest
        rw [hn'] at hrest h₁
        rw [List.length_cons]
        exact ⟨by rw [hrest], by omega, by omega⟩
      · rintro ⟨rfl, h₁, h₂⟩
        rw [List.length_cons] at h₁ h₂
        refine map_ok.mpr ⟨_, ih.mpr ⟨rfl, ?_, ?_⟩, ?_⟩
        · rw [hn']
          omega
        · rw [hn']
          omega
        · rw [hn']

/-- A loop that stays within fewer bytes does the same within more. -/
theorem copyWithin_mono {buf : Mem} {stop : UInt8} {size size' room i : Nat}
    {field : List UInt8} (hle : size ≤ size') (h : copyWithin buf stop size room i = .ok field) :
    copyWithin buf stop size' room i = .ok field := by
  induction room generalizing i field with
  | zero => cases h
  | succ room ih =>
    rw [copyWithin] at h ⊢
    split at h
    · cases h
    rename_i hi
    rw [if_neg (by omega)]
    split at h
    · rename_i hb
      rw [if_pos hb]
      exact h
    · rename_i hb
      rw [if_neg hb]
      obtain ⟨rest, hrest, rfl⟩ := map_ok.mp h
      exact map_ok.mpr ⟨rest, ih hrest, rfl⟩

-- ---------------------------------------------------------------------------
-- The body
-- ---------------------------------------------------------------------------

/-- The name and the password in `m_string`, which is at `text`, with `size` the first index that
may not be read. -/
def credentialsWithin (buf : Mem) (size text : Nat) : Except Fault (List UInt8 × List UInt8) := do
  let name ← copyWithin buf 38 size 100 (text + 5)
  let password ← copyWithin buf 0 size 100 (text + 5 + name.length + 10)
  return (asString name, password)

theorem credentials_eq (buf : Mem) (text : Nat) :
    credentials buf text = credentialsWithin buf readBufferSize text := by
  unfold credentials credentialsWithin
  simp only [copyField_eq]

/-- Every access that `do_request` makes for the credentials is in bounds: the reads in the body,
whose `n` bytes are followed by its NUL, the writes in `name`, `password` and, for a
registration, `sql_insert`. -/
def CredentialsInBounds (s : Parser) (n : Nat) (flag : UInt8) : Prop :=
  ∃ text name password, s.string = some text ∧
    credentialsWithin s.readBuf (text + n + 1) text = .ok (name, password) ∧
    (flag = 51 → (sqlInsert name password).length + 1 ≤ 200)

/-- In bounds, the loops copy what they copy anywhere, and `sql_insert` is built. -/
theorem CredentialsInBounds.run {s : Parser} {n : Nat} {flag : UInt8}
    (h : CredentialsInBounds s n flag) (w : World) {text : Nat} (htext : s.string = some text)
    (hfit : text + n + 1 ≤ readBufferSize) : ∃ name password r,
      credentials s.readBuf text = .ok (name, password) ∧
      w.check flag name password = .ok r := by
  obtain ⟨text', name, password, htext', hcred, hinsert⟩ := h
  obtain rfl := Option.some.inj (htext.symm.trans htext')
  have hcheck : ∃ r, w.check flag name password = .ok r := by
    unfold World.check
    by_cases hflag : flag = 51
    · rw [if_pos hflag, if_pos (hinsert hflag)]
      exact ⟨_, rfl⟩
    · rw [if_neg hflag]
      exact ⟨_, rfl⟩
  obtain ⟨r, hr⟩ := hcheck
  refine ⟨name, password, r, ?_, hr⟩
  obtain ⟨a, ha, hcred⟩ := bind_ok.mp hcred
  obtain ⟨b, hb, hcred⟩ := bind_ok.mp hcred
  rw [credentials_eq, credentialsWithin, bind_ok]
  refine ⟨a, copyWithin_mono hfit ha, ?_⟩
  rw [bind_ok]
  exact ⟨b, copyWithin_mono hfit hb, hcred⟩

/-- The fields of a body that fit where they are copied to. -/
def FieldsFit (flag : UInt8) (body : List UInt8) : Prop :=
  let name := (body.drop 5).takeWhile fun b => b ≠ 38
  let password := (body.drop (5 + name.length + 10)).takeWhile fun b => b ≠ 0
  5 + name.length + 10 ≤ body.length ∧ name.length ≤ 99 ∧ password.length ≤ 99 ∧
    (flag = 51 → (asString name).length + password.length ≤ 150)

instance (flag : UInt8) (body : List UInt8) : Decidable (FieldsFit flag body) := by
  unfold FieldsFit
  infer_instance

/-- The bytes of a body of `n` bytes that `parse_content` has admitted. -/
def Parser.body (s : Parser) (n : Nat) : List UInt8 :=
  match s.string with
  | none => []
  | some text => slice s.readBuf text n

/-- The body and its NUL, from an offset on. -/
theorem slice_body {m : Mem} {text n k : Nat} (hnul : m (text + n) = 0) (hk : k ≤ n) :
    slice m (text + k) (n + 1 - k) = (slice m text n).drop k ++ [0] := by
  refine List.ext_getElem ?_ ?_
  · simp [slice]
    omega
  · intro j h₁ h₂
    have hj : j < n + 1 - k := by simpa [slice] using h₁
    by_cases hlast : j < n - k
    · rw [List.getElem_append_left (by simpa [slice] using hlast)]
      simp [slice, Nat.add_assoc]
    · obtain rfl : j = n - k := by omega
      rw [List.getElem_append_right (by simp [slice])]
      simp only [slice, List.getElem_map, List.getElem_range, List.getElem_singleton]
      rw [show text + k + (n - k) = text + n by omega, hnul]

theorem takeWhile_nul {p : UInt8 → Bool} (b : List UInt8) (h : (b.takeWhile p).length < b.length) :
    (b ++ [0]).takeWhile p = b.takeWhile p := by
  rw [List.takeWhile_append, if_neg (by omega)]

/-- The name: there is a `&` to end it. -/
theorem name_within {m : Mem} {text n : Nat} (hnul : m (text + n) = 0) {name : List UInt8} :
    copyWithin m 38 (text + n + 1) 100 (text + 5) = .ok name ↔
      name = ((slice m text n).drop 5).takeWhile (fun b => b ≠ 38) ∧
        5 + name.length < n ∧ name.length ≤ 99 := by
  have hlen : (slice m text n).length = n := by simp [slice]
  rw [copyWithin_iff]
  by_cases h5 : 5 ≤ n
  · have hsize : text + n + 1 - (text + 5) = n + 1 - 5 := by omega
    rw [hsize, slice_body hnul h5]
    generalize hb : (slice m text n).drop 5 = b
    have hblen : b.length = n - 5 := by rw [← hb, List.length_drop, hlen]
    have hle : (b.takeWhile fun b => decide (b ≠ 38)).length ≤ b.length :=
      (List.takeWhile_prefix _).length_le
    by_cases hfound : (b.takeWhile fun b => decide (b ≠ 38)).length < b.length
    · rw [takeWhile_nul b hfound]
      constructor
      · rintro ⟨rfl, h₁, h₂⟩
        exact ⟨rfl, by omega, by omega⟩
      · rintro ⟨rfl, h₁, h₂⟩
        exact ⟨rfl, by omega, by omega⟩
    · -- without a `&` the loop runs past the NUL
      have hall : (b ++ [0]).takeWhile (fun b => decide (b ≠ 38)) = b ++ [0] := by
        rw [List.takeWhile_append, if_pos (by omega)]
        rfl
      rw [hall]
      constructor
      · rintro ⟨rfl, h₁, -⟩
        rw [List.length_append, List.length_singleton] at h₁
        omega
      · rintro ⟨rfl, h₁, -⟩
        omega
  · have hsize : text + n + 1 - (text + 5) = 0 ∨ n + 1 - 5 = 0 := by omega
    constructor
    · rintro ⟨-, h₁, -⟩
      omega
    · rintro ⟨-, h₁, -⟩
      omega

/-- The password: it begins in the body, or at its NUL. -/
theorem password_within {m : Mem} {text n i k : Nat} (hnul : m (text + n) = 0)
    (hi : i = text + k) {password : List UInt8} :
    copyWithin m 0 (text + n + 1) 100 i = .ok password ↔
      password = ((slice m text n).drop k).takeWhile (fun b => b ≠ 0) ∧
        k ≤ n ∧ password.length ≤ 99 := by
  subst hi
  have hlen : (slice m text n).length = n := by simp [slice]
  rw [copyWithin_iff]
  by_cases hk : k ≤ n
  · have hsize : text + n + 1 - (text + k) = n + 1 - k := by omega
    rw [hsize, slice_body hnul hk]
    generalize hb : (slice m text n).drop k = b
    have hblen : b.length = n - k := by rw [← hb, List.length_drop, hlen]
    have hle : (b.takeWhile fun b => decide (b ≠ 0)).length ≤ b.length :=
      (List.takeWhile_prefix _).length_le
    have htake : (b ++ [0]).takeWhile (fun b => decide (b ≠ 0)) =
        b.takeWhile fun b => decide (b ≠ 0) := by
      rw [List.takeWhile_append]
      split
      · rename_i hall
        have := (List.takeWhile_prefix (fun b => decide (b ≠ 0)) (l := b)).eq_of_length hall
        rw [this]
        exact List.append_nil b
      · rfl
    rw [htake]
    constructor
    · rintro ⟨rfl, h₁, h₂⟩
      exact ⟨rfl, hk, by omega⟩
    · rintro ⟨rfl, -, h₂⟩
      exact ⟨rfl, by omega, by omega⟩
  · constructor
    · rintro ⟨-, h₁, -⟩
      omega
    · rintro ⟨-, h₁, -⟩
      omega

theorem sqlInsert_length (name password : List UInt8) :
    (sqlInsert name password).length = 49 + name.length + password.length := by
  have h₁ : (bytes "INSERT INTO user(username, passwd) VALUES(").length = 42 := by decide
  have h₂ : (bytes "'").length = 1 := by decide
  have h₃ : (bytes "', '").length = 4 := by decide
  have h₄ : (bytes "')").length = 2 := by decide
  simp only [sqlInsert, List.length_append, h₁, h₂, h₃, h₄]
  omega

/-- **Credentials**, over any body with its NUL. -/
theorem inBounds_iff_fieldsFit {s : Parser} {text n : Nat} (htext : s.string = some text)
    (hnul : s.readBuf (text + n) = 0) (flag : UInt8) :
    CredentialsInBounds s n flag ↔ FieldsFit flag (s.body n) := by
  have hbody : s.body n = slice s.readBuf text n := by rw [Parser.body, htext]
  have hlen : (slice s.readBuf text n).length = n := by simp [slice]
  unfold CredentialsInBounds FieldsFit
  rw [hbody, hlen]
  constructor
  · rintro ⟨text', name, password, htext', hcred, hinsert⟩
    obtain rfl := Option.some.inj (htext.symm.trans htext')
    obtain ⟨name', hname, hcred⟩ := bind_ok.mp hcred
    obtain ⟨password', hpassword, hcred⟩ := bind_ok.mp hcred
    cases hcred
    obtain ⟨rfl, -, h₁⟩ := (name_within hnul).mp hname
    obtain ⟨rfl, h₂, h₃⟩ := (password_within hnul (by rw [Nat.add_assoc, Nat.add_assoc])).mp
      hpassword
    refine ⟨by omega, h₁, ?_, ?_⟩
    · rw [Nat.add_assoc]
      exact h₃
    · intro hflag
      have := hinsert hflag
      rw [sqlInsert_length] at this
      rw [Nat.add_assoc]
      omega
  · rintro ⟨hroom, hname, hpassword, hinsert⟩
    generalize hn : ((slice s.readBuf text n).drop 5).takeWhile (fun b => decide (b ≠ 38)) =
      name at *
    generalize hp : ((slice s.readBuf text n).drop (5 + name.length + 10)).takeWhile
      (fun b => decide (b ≠ 0)) = password at *
    refine ⟨text, asString name, password, htext, ?_, ?_⟩
    · refine bind_ok.mpr ⟨name, (name_within hnul).mpr ⟨hn.symm, by omega, hname⟩, ?_⟩
      refine bind_ok.mpr ⟨password, ?_, rfl⟩
      exact (password_within hnul (by omega)).mpr ⟨hp.symm, hroom, hpassword⟩
    · intro hflag
      have := hinsert hflag
      rw [sqlInsert_length]
      omega

-- ---------------------------------------------------------------------------
-- The result
-- ---------------------------------------------------------------------------

/-- What `parse_content` leaves of a body of `n` bytes: `m_string`, and a NUL behind it. -/
theorem parseContent_admits {t s : Parser} {text n : Nat}
    (h : parseContent t text = .ok (.getRequest, s)) (hn : t.contentLength = n) :
    s.string = some text ∧ s.readBuf (text + n) = 0 ∧ text + n + 1 ≤ readBufferSize := by
  rw [parseContent_eq] at h
  split at h
  · cases h
  split at h
  · cases h
  rename_i i hi
  unfold contentWrite at hi
  split at hi
  · obtain rfl := Option.some.inj hi
    split at h
    · rename_i hbounds
      cases h
      rw [hn] at hbounds
      have hto : ((text : Int) + t.contentLength).toNat = text + n := by
        rw [hn]
        omega
      refine ⟨rfl, ?_, by omega⟩
      simp only [hto, Function.update_self]
    · cases h
  · cases hi

/-- **Credentials.** On a body of `n` bytes that `parse_content` has admitted, `do_request` keeps
to the body and to its three arrays exactly if the fields fit. -/
theorem credentials_inBounds_iff {t s : Parser} {text n : Nat}
    (h : parseContent t text = .ok (.getRequest, s)) (hn : t.contentLength = n) (flag : UInt8) :
    CredentialsInBounds s n flag ↔ FieldsFit flag (s.body n) := by
  obtain ⟨htext, hnul, -⟩ := parseContent_admits h hn
  exact inBounds_iff_fieldsFit htext hnul flag

/-- `*(p + 1)`, the first byte of the last segment of the URL. -/
def Parser.flag (s : Parser) : Option UInt8 :=
  match s.url with
  | none => none
  | some url =>
    match strrchr s.readBuf readBufferSize url slash with
    | .ok (some p) => some (s.readBuf (p + 1))
    | _ => none

/-- The parser that `parse_content` leaves, called where `process_read` first calls it. -/
def admitted (bs : List UInt8) : Option (Parser × Parser) :=
  match contentCall 10 .lineOk (received bs) with
  | none => none
  | some t =>
    match parseContent t.nextLine t.startLine with
    | .ok (.getRequest, s) => some (t, s)
    | _ => none

theorem admitted_parsesContent {bs : List UInt8} {t s : Parser} (h : admitted bs = some (t, s)) :
    ParsesContent (received bs) t ∧
      parseContent t.nextLine t.startLine = .ok (.getRequest, s) := by
  unfold admitted at h
  split at h
  · cases h
  rename_i t' ht
  split at h
  · rename_i s' hs
    cases h
    exact ⟨parsesContent_of_contentCall ht, hs⟩
  · cases h

/-- A login with this body. -/
def loginWith (body : String) : List UInt8 :=
  bytes "POST /2 HTTP/1.1\r\nContent-length: " ++ digits (bytes body).length ++
    bytes "\r\n\r\n" ++ bytes body

theorem credentials_inBounds_iff_login : ∃ t s,
    admitted (loginWith "user=a&password=b") = some (t, s) ∧
      (CredentialsInBounds s 17 50 ↔ FieldsFit 50 (s.body 17)) := by
  have hrun : (admitted (loginWith "user=a&password=b")).any
      (fun r => decide (r.1.contentLength = 17)) = true := by decide +kernel
  obtain ⟨⟨t, s⟩, h, hlength⟩ := (Option.any_eq_true _ _).mp hrun
  obtain ⟨-, hcontent⟩ := admitted_parsesContent h
  exact ⟨t, s, h, credentials_inBounds_iff hcontent (of_decide_eq_true hlength) 50⟩

/-- A login with the body `x`: the loop that looks for a `&` leaves the body. -/
theorem credentials_out_of_bounds : ¬ ∀ (s₀ t s : Parser) (n : Nat) (flag : UInt8),
    Reading s₀ → ParsesContent s₀ t →
    parseContent t.nextLine t.startLine = .ok (.getRequest, s) → t.contentLength = n →
    s.cgi = true → s.flag = some flag → (flag = 50 ∨ flag = 51) →
    CredentialsInBounds s n flag := by
  intro h
  have hrun : (admitted (loginWith "x")).any (fun r =>
      decide (r.1.contentLength = 1) && r.2.cgi && decide (r.2.flag = some 50) &&
        !decide (FieldsFit 50 (r.2.body 1))) = true := by decide +kernel
  obtain ⟨⟨t, s⟩, hadmitted, hcheck⟩ := (Option.any_eq_true _ _).mp hrun
  simp only [Bool.and_eq_true, decide_eq_true_eq, Bool.not_eq_true', decide_eq_false_iff_not]
    at hcheck
  obtain ⟨⟨⟨hlength, hcgi⟩, hflag⟩, hfit⟩ := hcheck
  obtain ⟨hparses, hcontent⟩ := admitted_parsesContent hadmitted
  obtain ⟨htext, hnul, -⟩ := parseContent_admits hcontent (n := 1) hlength
  have hsafe := h _ t s 1 50 (reading_received (by decide) (by decide)) hparses hcontent hlength
    hcgi hflag (Or.inl rfl)
  exact hfit ((inBounds_iff_fieldsFit htext hnul 50).mp hsafe)

end TinyHTTP.Http
