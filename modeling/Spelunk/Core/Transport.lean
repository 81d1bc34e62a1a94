import Mathlib.Data.List.DropRight
import Spelunk.Core.RelayStream
import Spelunk.Lib.Address

/-!
# The Transport of a Server URL

Which URLs a bearer token may be sent to: `https` to any host, and `http` to a loopback host. The
host is read off the text of the URL, without the parser that opens the connection.

## Main definitions

* `urlHost`: The host in the text of a URL.
* `hostIsLoopback`, `isLoopbackUrl`: Whether it is a loopback host.
* `validateTransportUrl`: The check.
-/

namespace Spelunk

open Lib (parseIpv4 parseIpv6)

/-- `Ipv6Addr::LOCALHOST`. -/
def ipv6Localhost : List ℕ := [0, 0, 0, 0, 0, 0, 0, 1]

/-- The host of a URL: without scheme, userinfo, port and brackets. The authority ends at the first
    `/`, `?`, `#` or `\`, and the userinfo at its last `@`. -/
def urlHost (url : List Char) : Option (List Char) :=
  let rest := ((stripPrefix "http://".toList url).orElse
    fun _ => stripPrefix "https://".toList url).getD url
  let authority := rest.takeWhile fun c => !(c = '/' || c = '?' || c = '#' || c = '\\')
  let hostPort := authority.rtakeWhile (· ≠ '@')
  match stripPrefix ['['] hostPort with
  | some afterBracket => some (afterBracket.takeWhile (· ≠ ']'))
  | none =>
    -- Several colons and no brackets are a bare IPv6 literal.
    if 1 < hostPort.count ':' then some hostPort else some (hostPort.takeWhile (· ≠ ':'))

def hostIsLoopback (host : List Char) : Bool :=
  if host = "localhost".toList then true
  else
    match parseIpv4 host with
    | some v4 => v4.1 = 127
    | none => (parseIpv6 host).any (· = ipv6Localhost)

def isLoopbackUrl (url : List Char) : Bool := (urlHost url).any hostIsLoopback

/-- Why a URL is refused. -/
inductive TransportError where
  | plaintext (url : List Char)
  | scheme (url : List Char)
deriving DecidableEq, Repr

/-- The text of the error, with the URL as it is printed for debugging. -/
def TransportError.text (debug : List Char → String) : TransportError → String
  | .plaintext url => "invalid server URL " ++ debug url ++ ": plaintext http:// is only " ++
      "allowed to a loopback address (127.0.0.1/::1/localhost); use https:// for any other host"
  | .scheme url => "invalid server URL " ++ debug url ++ ": expected an http:// or https:// URL"

def validateTransportUrl (url : List Char) : Except TransportError Unit :=
  if "https://".toList.isPrefixOf url then .ok ()
  else if "http://".toList.isPrefixOf url then
    if isLoopbackUrl url then .ok () else .error (.plaintext url)
  else .error (.scheme url)

end Spelunk
