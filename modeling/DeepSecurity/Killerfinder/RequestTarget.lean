import DeepSecurity.Killerfinder.TcpSession

/-!
# Request targets

The forms in which a request says what it asks for, and what is to be looked up in the block lists
for each of them.
-/

namespace Killerfinder

/-- The absolute form, a scheme and an authority. Behind the authority there is a path, a query or
nothing. -/
structure AbsoluteForm where
  /-- The scheme in front of `://`. -/
  scheme : Bytes
  /-- The host with its port. -/
  authority : Bytes
  /-- The path and the query. -/
  rest : Bytes
  /-- There is a scheme. -/
  scheme_ne : scheme ≠ []
  /-- The first `://` is the one behind the scheme. -/
  scheme_chars : ∀ c ∈ scheme, c ≠ ':'.toUInt8 ∧ c ≠ '/'.toUInt8
  /-- The authority ends at the first slash or question mark. -/
  authority_chars : ∀ c ∈ authority, c ≠ '/'.toUInt8 ∧ c ≠ '?'.toUInt8
  /-- What is behind it begins with one of the two. -/
  rest_head : ∀ c ∈ rest.head?, c = '/'.toUInt8 ∨ c = '?'.toUInt8

namespace AbsoluteForm

/-- The target as it stands in the request line. -/
def text (f : AbsoluteForm) : Bytes := f.scheme ++ (lit [':', '/', '/'] ++ (f.authority ++ f.rest))

/-- The path, with its query, or `/` if there is none. -/
def path (f : AbsoluteForm) : Bytes :=
  if f.rest.head? = some '/'.toUInt8 then f.rest else lit ['/']

end AbsoluteForm

/-- The four forms of a request target. -/
inductive RequestTarget where
  /-- A slash and the bytes `rest`. -/
  | origin (rest : Bytes)
  | absolute (f : AbsoluteForm)
  | asterisk
  /-- The form of a `CONNECT` request. -/
  | authority (name : { l : Bytes // l ≠ [] ∧ '/'.toUInt8 ∉ l })

namespace RequestTarget

/-- The target as it stands in the request line. -/
def text : RequestTarget → Bytes
  | origin rest => '/'.toUInt8 :: rest
  | absolute f => f.text
  | asterisk => lit ['*']
  | authority name => name

/-- What is to be looked up for a request with the `Host` value `host`. -/
def lookup (host : Bytes) : RequestTarget → Option BlockWrite
  | origin rest => some (.request (lit ['h', 't', 't', 'p']) host ('/'.toUInt8 :: rest))
  | absolute f => some (.request f.scheme host f.path)
  | asterisk | authority _ => none

/-- The targets that are taken apart as they should be. -/
def Regular : RequestTarget → Prop
  | origin rest => ¬ lit [':', '/', '/'] <:+: '/'.toUInt8 :: rest
  | absolute f => f.rest.head? ≠ some '?'.toUInt8
  | asterisk => False
  | authority name => 2 ≤ name.1.length

end RequestTarget

namespace CTcpSession

variable {P : HttpParser}

/-- The session while the headers of a request with the target `t` are read. -/
def withTarget (sess : CTcpSession P) (t : RequestTarget) (hostF hostV : Bytes) : CTcpSession P :=
  { sess with
    mHttpDecoder :=
      { sess.mHttpDecoder with mUrl := t.text, mHostField := hostF, mHostValue := hostV } }

/-- The end of the `Host` value of a request leads to the right look-up, and for the absolute form the
end of the headers leads to the same one if there was no `Host` value. -/
structure TakesApart (db : CDBManager) (sess : CTcpSession P) (t : RequestTarget) : Prop where
  /-- The end of the `Host` value leads to the look-up for the target and this value. -/
  host : ∀ hostV buf, ∃ s,
    (sess.withTarget t (lit ['h', 'o', 's', 't']) hostV).headerValueCb db 50 buf = .ok s ∧
      ∀ w ∈ t.lookup (hostV ++ buf), s.blockLog = sess.blockLog ++ [w]
  /-- The end of the headers of an absolute request without a `Host` value leads to the look-up that
  its authority as `Host` value would lead to. -/
  noHost : ∀ f, t = .absolute f → ∀ hostV buf hostF s, hostV ++ buf = f.authority →
    (sess.withTarget t (lit ['h', 'o', 's', 't']) hostV).headerValueCb db 50 buf = .ok s →
      ((sess.withTarget t hostF []).headersCompleteCb db).blockLog = s.blockLog

end CTcpSession

end Killerfinder
