import TinyHTTP.Http.Conn

/-!
# TinyHTTP — version_02: a request

`get_url_method` takes the method and the URL out of what `recv` has put into the
buffer, `send_http` turns them into the path of a file.
-/

namespace TinyHTTP.Version02

open TinyHTTP.Lib
open TinyHTTP.Http (asString slash)

/-- The size of `buf` in `recv_http`. -/
def recvSize : Nat := 10240

/-- What `send_http` reads of `struct conf_http_t`; `doc` has 50 bytes. -/
structure ConfHttp where
  doc : List UInt8
  nonzero : ∀ b ∈ doc, b ≠ 0
  fits : doc.length < 50

/-- `struct http_request`, as far as requests set it. -/
structure HttpRequest where
  alive : Bool
  method : List UInt8
  url : List UInt8
  deriving DecidableEq, Repr

/-- `get_url_method`, with `size` bytes received into `header`. -/
def getUrlMethod (header : Mem) (size : Nat) : Except Fault HttpRequest := do
  let method ← copyWhile header recvSize (· == 32) size 32 0
  -- `method[j] = '\0'`, in an array of 32 bytes
  if method.length < 32 then
    let i ← skipSpan header recvSize method.length [32]
    let url ← copyWhile header recvSize (· == 32) size 128 i
    if url.length < 128 then
      let alive ← strcasestr header (bytes "keep-alive") recvSize 0
      return { alive := alive, method := asString method, url := asString url }
    else .error .outOfBounds
  else .error .outOfBounds

/-- `send_http`: the file name that `write_200` gets; `none` is `write_405`. -/
def sendHttp (conf : ConfHttp) (r : HttpRequest) : Except Fault (Option (List UInt8)) :=
  if r.method.map lower ≠ bytes "get" then .ok none
  else if r.url = [] then .ok none
  else
    let path := conf.doc ++ r.url
    let path := if path.getLast? = some slash then path ++ bytes "index.html" else path
    -- `char path[128]`
    if path.length + 1 ≤ 128 then .ok (some path) else .error .outOfBounds

/-- The path is made of the URL. -/
theorem sendHttp_path {conf : ConfHttp} {r : HttpRequest} {path : List UInt8}
    (h : sendHttp conf r = .ok (some path)) :
    (r.url.getLast? ≠ some slash ∧ path = conf.doc ++ r.url) ∨
      (r.url.getLast? = some slash ∧ path = conf.doc ++ r.url ++ bytes "index.html") := by
  unfold sendHttp at h
  split at h
  · cases h
  split at h
  · cases h
  rename_i hurl
  have hlast : (conf.doc ++ r.url).getLast? = r.url.getLast? := by
    rw [List.getLast?_append, List.getLast?_eq_some_getLast hurl, Option.some_or]
  dsimp only at h
  rw [hlast] at h
  split at h
  · rename_i hslash
    split at h
    · exact Or.inr ⟨hslash, (Option.some.inj (Except.ok.inj h)).symm⟩
    · cases h
  · rename_i hslash
    split at h
    · exact Or.inl ⟨hslash, (Option.some.inj (Except.ok.inj h)).symm⟩
    · cases h

end TinyHTTP.Version02
