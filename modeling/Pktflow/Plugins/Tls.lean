import Pktflow.Core.Looping
import Pktflow.Lib.Utf8Decode
import Pktflow.Plugins.ExtHeaders
import Pktflow.Plugins.FiveTuple

/-!
# TLS

Model of `tls.rs`. A record is a header and a fragment; a fragment of handshake begins with a message, and of the two
hellos the cleartext fields are read. What a hello says is read back from it (`parse_tls_hello`). A hello that is cut
loses more than what is cut off: `parse_handshake` gives up on the whole message when a part in front of the
extensions is missing, and on all extensions when their block is (`keepsFields_iff`).
-/

set_option autoImplicit false

namespace Pktflow.Plugins

open Pktflow.Core Pktflow.Core.ByteReader Pktflow.Flows Pktflow.Lib

/-! ## The plugin -/

/-- `is_content_type`. -/
def isContentType (ct : UInt8) : Bool := 20 ≤ ct ∧ ct ≤ 23

/-- `is_record_version`. -/
def isRecordVersion (v : UInt16) : Bool := 0x0300 ≤ v ∧ v ≤ 0x0304

/-- `Handshake`. -/
structure Handshake where
  hsType : UInt8
  cipherSuites : Option (List Value) := none
  sni : Option Text := none
  alpn : Option (List Value) := none
  selectedCipherSuite : Option UInt16 := none
  tlsVersionSelected : Option UInt16 := none

/-- The header and the data of one extension. -/
def extensionEntry : ByteReader (UInt16 × List UInt8) := do
  let extType ← u16Be
  let extLen ← u16Be
  let data ← take extLen.toNat
  return (extType, data)

/-- `walk_extensions`. -/
def walkExtensions (block : List UInt8) : List (UInt16 × List UInt8) :=
  ((whileGood 4 extensionEntry (fun out e => out ++ [e]) []).parse block).toOption.getD []

/-- The bytes of `parse_sni`: the type and the bytes of the first entry. -/
def serverNameReader : ByteReader (UInt8 × List UInt8) := do
  let _listLen ← u16Be
  let nameType ← u8
  let nameLen ← u16Be
  let name ← take nameLen.toNat
  return (nameType, name)

/-- `String::from_utf8_lossy` as a value. -/
def lossyValue (bytes : List UInt8) : Value := .str (String.ofList (Text.lossy bytes))

/-- `parse_sni`. -/
def parseSni (data : List UInt8) : Option Text :=
  (serverNameReader.parse data).toOption.bind fun (nameType, name) =>
    if nameType = 0 then some (Text.lossy name) else none

/-- One protocol of the list. -/
def protocolEntry (protos : List Value) : ByteReader (List Value) := do
  let plen ← u8
  let proto ← take plen.toNat
  return protos ++ [lossyValue proto]

/-- The bytes of `parse_alpn`. -/
def protocolsReader : ByteReader (List Value) := do
  let _listLen ← u16Be
  whileLeft 1 protocolEntry []

/-- `parse_alpn`. -/
def parseAlpn (data : List UInt8) : Option (List Value) :=
  (protocolsReader.parse data).toOption.filter fun protos => !protos.isEmpty

/-- The cipher suites of a list. -/
def cipherSuites (csBytes : List UInt8) : List Value :=
  ((whileGood 0 u16Be (fun suites suite => suites ++ [.u64 suite.toUInt64]) []).parse csBytes).toOption.getD []

/-- Both hellos: legacy version, random and session id. -/
def helloHead : ByteReader UInt16 := do
  let legacyVersion ← u16Be
  let _random ← take 32
  let sidLen ← u8
  let _sid ← take sidLen.toNat
  return legacyVersion

/-- A ClientHello up to the extensions: the bytes of its cipher suites. -/
def clientFixed : ByteReader (List UInt8) := do
  let _ ← helloHead
  let csLen ← u16Be
  let csBytes ← take csLen.toNat
  let compLen ← u8
  let _comp ← take compLen.toNat
  return csBytes

/-- A ServerHello up to the extensions: the cipher suite and the legacy version. -/
def serverFixed : ByteReader (UInt16 × UInt16) := do
  let legacyVersion ← helloHead
  let suite ← u16Be
  let _comp ← u8
  return (suite, legacyVersion)

/-- The extensions of a hello, none if their block is not there. -/
def helloExtensions : ByteReader (List (UInt16 × List UInt8)) := do
  let block ← attempt do
    let extTotal ← u16Be
    take extTotal.toNat
  return (block.map walkExtensions).getD []

/-- The hello after one more extension. -/
def recordExtension (hs : Handshake) (e : UInt16 × List UInt8) : Handshake :=
  if e.1 = 0 ∧ hs.hsType = 1 then { hs with sni := parseSni e.2 }
  else if e.1 = 16 ∧ hs.hsType = 1 then { hs with alpn := parseAlpn e.2 }
  else if e.1 = 43 ∧ hs.hsType = 2 then
    match u16Be.parse e.2 with
    | .ok v => { hs with tlsVersionSelected := some v }
    | .error _ => hs
  else hs

/-- The bytes of `parse_handshake`. -/
def handshakeReader (deep : Bool) : ByteReader Handshake := do
  let hsType ← u8
  let _hi ← u8
  let _mid ← u8
  let _lo ← u8
  if ¬deep ∨ (hsType ≠ 1 ∧ hsType ≠ 2) then return { hsType }
  else if hsType = 1 then
    let csBytes ← clientFixed
    let exts ← helloExtensions
    return exts.foldl recordExtension { hsType, cipherSuites := some (cipherSuites csBytes) }
  else
    let (suite, legacyVersion) ← serverFixed
    let exts ← helloExtensions
    return exts.foldl recordExtension
      { hsType, selectedCipherSuite := some suite, tlsVersionSelected := some legacyVersion }

/-- `parse_handshake`. -/
def parseHandshake (fragment : List UInt8) (deep : Bool) : Option Handshake :=
  ((handshakeReader deep).parse fragment).toOption

/-- The fields of a record. -/
def tlsFields (ctx : ParseCtx) (contentType : UInt8) (recordVersion : UInt16) (handshake : Option Handshake) : FieldMap :=
  insertAt ctx .full
    (((handshake.bind (·.cipherSuites)).map Value.list).toList.map (fun v => ("cipher_suites", v)) ++
      ((handshake.bind (·.alpn)).map Value.list).toList.map (fun v => ("alpn", v)) ++
      ((handshake.bind (·.selectedCipherSuite)).map fun v => Value.u64 v.toUInt64).toList.map
        (fun v => ("selected_cipher_suite", v)) ++
      ((handshake.bind (·.tlsVersionSelected)).map fun v => Value.u64 v.toUInt64).toList.map
        (fun v => ("tls_version_selected", v)))
    (insertAt ctx .structural
      ([("content_type", .u64 contentType.toUInt64), ("record_version", .u64 recordVersion.toUInt64)] ++
        (handshake.map fun hs => Value.u64 hs.hsType.toUInt64).toList.map (fun v => ("handshake_type", v)) ++
        ((handshake.bind (·.sni)).map fun s => Value.str (String.ofList s)).toList.map (fun v => ("sni", v)))
      (insertAt ctx .keys [("app", .str "tls")] FieldMap.new))

/-- `Tls::parse`. -/
def parseTls (ctx : ParseCtx) : ByteReader ParsedLayer := do
  let contentType ← u8
  if ¬isContentType contentType then throw (.malformed "not a TLS content type")
  let recordVersion ← u16Be
  if ¬isRecordVersion recordVersion then throw (.malformed "implausible TLS record version")
  let length ← u16Be
  let fragment ← take length.toNat
  let handshake := if contentType = 22 then parseHandshake fragment (atDepth ctx .structural) else none
  return ⟨5 + length.toNat, tlsFields ctx contentType recordVersion handshake, .terminal⟩

/-- `Tls::probe`. -/
def probeTls (bytes : List UInt8) : Option Confidence :=
  let head : ByteReader (UInt8 × UInt16 × UInt16) := do
    let contentType ← u8
    let recordVersion ← u16Be
    let length ← u16Be
    return (contentType, recordVersion, length)
  (head.parse bytes).toOption.bind fun (contentType, recordVersion, length) =>
    if isContentType contentType ∧ isRecordVersion recordVersion ∧ length.toNat ≤ bytes.length - 5 + 16 then
      some (Confidence.new 55)
    else none

/-- `Tls`. -/
def tls : LayerPlugin where
  name := "tls"
  parse := fun bytes ctx => (parseTls ctx).parse bytes
  claims := [.tcpPort 443]
  hasProbe := true
  probe := fun bytes _ => probeTls bytes
  streamIdentity := some
    { key := [⟨"app", none⟩], canonicalize := .endpointSort, lifecycle := none,
      rollups := [⟨"sni", .sample⟩, ⟨"handshake_type", .accumulate⟩, ⟨"selected_cipher_suite", .accumulate⟩,
        ⟨"tls_version_selected", .accumulate⟩] }

/-! ## Messages -/

/-- A handshake record. -/
structure TlsRecord where
  version : UInt16
  fragment : List UInt8
  known_version : isRecordVersion version = true
  fits : fragment.length < 65536

/-- The record as it is sent. -/
def TlsRecord.bytes (r : TlsRecord) : List UInt8 :=
  22 :: (beBytes 2 r.version.toNat ++ (beBytes 2 r.fragment.length ++ r.fragment))

/-- What both hellos begin with. -/
structure HelloHead where
  legacyVersion : UInt16
  random : List UInt8
  sessionId : List UInt8
  random_length : random.length = 32
  sessionId_fits : sessionId.length < 256

/-- The bytes of it. -/
def HelloHead.bytes (h : HelloHead) : List UInt8 :=
  beBytes 2 h.legacyVersion.toNat ++ (h.random ++ UInt8.ofNat h.sessionId.length :: h.sessionId)

/-- What a ClientHello has in front of its extensions; the cipher suites are any bytes here. -/
structure ClientFixed where
  head : HelloHead
  suiteBytes : List UInt8
  compression : List UInt8
  suites_fit : suiteBytes.length < 65536
  compression_fits : compression.length < 256

/-- The bytes of it. -/
def ClientFixed.bytes (c : ClientFixed) : List UInt8 :=
  c.head.bytes ++ (beBytes 2 c.suiteBytes.length ++ (c.suiteBytes ++ UInt8.ofNat c.compression.length :: c.compression))

/-- The bytes of a list of cipher suites. -/
def suiteList (suites : List UInt16) : List UInt8 := suites.flatMap fun s => beBytes 2 s.toNat

/-- An extension as it is sent. -/
def extensionBytes (e : UInt16 × List UInt8) : List UInt8 :=
  beBytes 2 e.1.toNat ++ (beBytes 2 e.2.length ++ e.2)

/-- The data of a server_name extension whose first entry is this host name. -/
inductive HoldsName : List UInt8 → List UInt8 → Prop where
  | mk (listLen : UInt16) (name more : List UInt8) (hfits : name.length < 65536) :
      HoldsName (beBytes 2 listLen.toNat ++ (0 :: (beBytes 2 name.length ++ (name ++ more)))) name

/-- A protocol name behind its length. -/
def protocolBytes (name : List UInt8) : List UInt8 := UInt8.ofNat name.length :: name

/-- The data of an ALPN extension with these protocols. -/
inductive HoldsProtocols : List UInt8 → List (List UInt8) → Prop where
  | mk (listLen : UInt16) (names : List (List UInt8)) (hne : names ≠ []) (hfits : ∀ n ∈ names, n.length < 256) :
      HoldsProtocols (beBytes 2 listLen.toNat ++ names.flatMap protocolBytes) names

/-- The data of the one extension of a type, if there is one. -/
inductive Carries {α : Type} (exts : List (UInt16 × List UInt8)) (extType : UInt16) (holds : List UInt8 → α → Prop) :
    Option α → Prop where
  | present {data : List UInt8} {a : α} (hmem : (extType, data) ∈ exts) (h : holds data a) :
      Carries exts extType holds (some a)
  | absent (h : extType ∉ exts.map Prod.fst) : Carries exts extType holds none

/-- A block of extensions, of different types, that a hello may end with. -/
structure ExtensionBlock where
  exts : List (UInt16 × List UInt8)
  differ : (exts.map Prod.fst).Nodup
  data_fit : ∀ e ∈ exts, e.2.length < 65536
  block_fits : (exts.flatMap extensionBytes).length < 65536

/-- The block as it is sent. -/
def ExtensionBlock.bytes (b : ExtensionBlock) : List UInt8 :=
  beBytes 2 (b.exts.flatMap extensionBytes).length ++ b.exts.flatMap extensionBytes

/-- The end of a hello: a block of extensions, or nothing. -/
def blockBytes (block : Option ExtensionBlock) : List UInt8 := (block.map ExtensionBlock.bytes).getD []

/-- The extensions of a hello. -/
def blockExts (block : Option ExtensionBlock) : List (UInt16 × List UInt8) := (block.map ExtensionBlock.exts).getD []

/-- A ClientHello. -/
structure ClientHello where
  fixed : ClientFixed
  suites : List UInt16
  block : Option ExtensionBlock
  hostName : Option Text
  protocols : Option (List Text)
  suites_held : fixed.suiteBytes = suiteList suites
  hostName_held : Carries (blockExts block) 0 (fun data t => HoldsName data (Text.encode t)) hostName
  protocols_held : Carries (blockExts block) 16 (fun data ts => HoldsProtocols data (ts.map Text.encode)) protocols

/-- The body of the message. -/
def ClientHello.body (h : ClientHello) : List UInt8 := h.fixed.bytes ++ blockBytes h.block

/-- A ServerHello. -/
structure ServerHello where
  head : HelloHead
  suite : UInt16
  compression : UInt8
  block : Option ExtensionBlock
  supportedVersion : Option UInt16
  supportedVersion_held : Carries (blockExts block) 43 (fun data v => data = beBytes 2 v.toNat) supportedVersion

/-- The body of the message. -/
def ServerHello.body (h : ServerHello) : List UInt8 :=
  h.head.bytes ++ (beBytes 2 h.suite.toNat ++ (h.compression :: blockBytes h.block))

/-- A handshake message: its type, the length of its body, and the body. -/
def handshakeBytes (hsType : UInt8) (body : List UInt8) : List UInt8 := hsType :: (beBytes 3 body.length ++ body)

/-- A text as a value. -/
def textField (t : Text) : Value := .str (String.ofList t)

/-- A layer tells what a ClientHello says. -/
structure ReadsClient (h : ClientHello) (layer : ParsedLayer) : Prop where
  headerLen : layer.headerLen = 5 + (handshakeBytes 1 h.body).length
  handshakeType : layer.fields.get "handshake_type" = some (.u64 1)
  cipherSuites : layer.fields.get "cipher_suites" = some (.list (h.suites.map fun s => .u64 s.toUInt64))
  sni : layer.fields.get "sni" = h.hostName.map textField
  alpn : layer.fields.get "alpn" = h.protocols.map fun ts => .list (ts.map textField)

/-- A layer tells what a ServerHello says. -/
structure ReadsServer (h : ServerHello) (layer : ParsedLayer) : Prop where
  headerLen : layer.headerLen = 5 + (handshakeBytes 2 h.body).length
  handshakeType : layer.fields.get "handshake_type" = some (.u64 2)
  selectedCipherSuite : layer.fields.get "selected_cipher_suite" = some (.u64 h.suite.toUInt64)
  tlsVersionSelected : layer.fields.get "tls_version_selected" =
    some (.u64 (h.supportedVersion.getD h.head.legacyVersion).toUInt64)

section Records

variable {buf rest : List UInt8} {ctx : ParseCtx}

/-- A run of bytes behind its length in two bytes. -/
theorem take_read {bytes : List UInt8} (h : bytes.length < 65536) (more : List UInt8) :
    (u16Be >>= fun n => take n.toNat) (beBytes 2 bytes.length ++ (bytes ++ more)) = .ok (bytes, more) := by
  rw [bind_of_ok (reads_u16Be _ _), UInt16.toNat_ofNat_of_lt' h]
  exact reads_take bytes more

/-! ### Records -/

/-- What the plugin makes of a handshake record. -/
theorem parse_record (r : TlsRecord) (more : List UInt8) :
    tls.parse (r.bytes ++ more) ctx = .ok ⟨5 + r.fragment.length,
      tlsFields ctx 22 r.version (parseHandshake r.fragment (atDepth ctx .structural)), .terminal⟩ := by
  have hlen : (UInt16.ofNat r.fragment.length).toNat = r.fragment.length := UInt16.toNat_ofNat_of_lt' r.fits
  refine parse_eq_ok.2 ⟨more, ?_⟩
  rw [parseTls, TlsRecord.bytes, List.cons_append, bind_of_ok (u8_cons _ _), if_neg (by decide), List.append_assoc]
  beta_reduce
  rw [bind_of_ok (reads_u16Be_toNat _ _), if_neg (not_not.2 r.known_version), List.append_assoc]
  beta_reduce
  rw [bind_of_ok (reads_u16Be _ _), hlen, bind_of_ok (reads_take _ _)]
  rfl

section Fields

variable {contentType : UInt8} {version : UInt16} {handshake : Option Handshake}

theorem get_cipherSuites (hctx : atDepth ctx .full = true) :
    (tlsFields ctx contentType version handshake).get "cipher_suites" =
      (handshake.bind (·.cipherSuites)).map Value.list := by
  rw [tlsFields, List.append_assoc, List.append_assoc, ← List.nil_append (List.map _ _ ++ _), ← List.append_assoc]
  exact get_insertAt_field hctx _ (by simp) (by simp) (by rw [get_insertAt (by simp), get_insertAt (by simp)]; rfl)

theorem get_alpn (hctx : atDepth ctx .full = true) :
    (tlsFields ctx contentType version handshake).get "alpn" = (handshake.bind (·.alpn)).map Value.list := by
  rw [tlsFields, List.append_assoc (_ ++ _)]
  exact get_insertAt_field hctx _ (by simp) (by simp) (by rw [get_insertAt (by simp), get_insertAt (by simp)]; rfl)

theorem get_selectedCipherSuite (hctx : atDepth ctx .full = true) :
    (tlsFields ctx contentType version handshake).get "selected_cipher_suite" =
      (handshake.bind (·.selectedCipherSuite)).map fun v => Value.u64 v.toUInt64 :=
  get_insertAt_field hctx _ (by simp) (by simp) (by rw [get_insertAt (by simp), get_insertAt (by simp)]; rfl)

theorem get_tlsVersionSelected (hctx : atDepth ctx .full = true) :
    (tlsFields ctx contentType version handshake).get "tls_version_selected" =
      (handshake.bind (·.tlsVersionSelected)).map fun v => Value.u64 v.toUInt64 := by
  rw [tlsFields, ← List.append_nil (_ ++ _)]
  exact get_insertAt_field hctx _ (by simp) (by simp) (by rw [get_insertAt (by simp), get_insertAt (by simp)]; rfl)

theorem get_handshakeType (hctx : atDepth ctx .structural = true) :
    (tlsFields ctx contentType version handshake).get "handshake_type" =
      handshake.map fun hs => Value.u64 hs.hsType.toUInt64 := by
  rw [tlsFields, get_insertAt (by simp)]
  exact get_insertAt_field hctx _ (by simp) (by simp) (by rw [get_insertAt (by simp)]; rfl)

theorem get_sni (hctx : atDepth ctx .structural = true) :
    (tlsFields ctx contentType version handshake).get "sni" =
      (handshake.bind (·.sni)).map fun s => Value.str (String.ofList s) := by
  rw [tlsFields, get_insertAt (by simp), ← List.append_nil (_ ++ _)]
  exact get_insertAt_field hctx _ (by simp) (by simp) (by rw [get_insertAt (by simp)]; rfl)

end Fields

/-! ### The parts of a hello -/

theorem helloHead_read (h : HelloHead) (more : List UInt8) :
    helloHead (h.bytes ++ more) = .ok (h.legacyVersion, more) := by
  have hlen : (UInt8.ofNat h.sessionId.length).toNat = h.sessionId.length := toNat_byte h.sessionId_fits
  rw [helloHead, HelloHead.bytes, List.append_assoc, bind_of_ok (reads_u16Be_toNat _ _), List.append_assoc,
    bind_of_ok (take_eq_ok.2 ⟨rfl, h.random_length⟩), List.cons_append, bind_of_ok (u8_cons _ _), hlen,
    bind_of_ok (reads_take _ _)]
  rfl

theorem clientFixed_read (c : ClientFixed) (more : List UInt8) :
    clientFixed (c.bytes ++ more) = .ok (c.suiteBytes, more) := by
  have hsuites : (UInt16.ofNat c.suiteBytes.length).toNat = c.suiteBytes.length := UInt16.toNat_ofNat_of_lt' c.suites_fit
  have hcomp : (UInt8.ofNat c.compression.length).toNat = c.compression.length := toNat_byte c.compression_fits
  rw [clientFixed, ClientFixed.bytes, List.append_assoc, bind_of_ok (helloHead_read _ _), List.append_assoc,
    bind_of_ok (reads_u16Be _ _), hsuites, List.append_assoc, bind_of_ok (reads_take _ _), List.cons_append,
    bind_of_ok (u8_cons _ _), hcomp, bind_of_ok (reads_take _ _)]
  rfl

theorem serverFixed_read (h : HelloHead) (suite : UInt16) (compression : UInt8) (more : List UInt8) :
    serverFixed (h.bytes ++ (beBytes 2 suite.toNat ++ compression :: more)) = .ok ((suite, h.legacyVersion), more) := by
  rw [serverFixed, bind_of_ok (helloHead_read _ _), bind_of_ok (reads_u16Be_toNat _ _), bind_of_ok (u8_cons _ _)]
  rfl

theorem cipherSuites_suiteList (suites : List UInt16) :
    cipherSuites (suiteList suites) = suites.map fun s => Value.u64 s.toUInt64 := by
  have hprogress : EntryProgresses u16Be := by
    intro buf x rest h
    have hlen := takes_u16Be buf x rest h
    omega
  have hwalk : whileGood 0 u16Be (fun suites s => suites ++ [Value.u64 s.toUInt64]) [] (suiteList suites ++ []) =
      .ok (suites.foldl (fun suites s => suites ++ [Value.u64 s.toUInt64]) [], []) :=
    whileGood_flatMap hprogress (fun _ _ => Nat.zero_le _) (fun s _ => reads_u16Be_toNat s) []
      (.inr ⟨.truncated 2 0, rfl⟩)
  rw [List.append_nil, foldl_snoc, List.nil_append] at hwalk
  rw [cipherSuites, parse_eq_ok.2 ⟨[], hwalk⟩]
  rfl

/-! ### Extensions -/

theorem four_le_extensionBytes (e : UInt16 × List UInt8) : 4 ≤ (extensionBytes e).length := by
  rw [extensionBytes, List.length_append, List.length_append, length_beBytes, length_beBytes]
  omega

theorem extensionEntry_read {e : UInt16 × List UInt8} (h : e.2.length < 65536) :
    Reads extensionEntry (extensionBytes e) e := by
  intro more
  have hlen : (UInt16.ofNat e.2.length).toNat = e.2.length := UInt16.toNat_ofNat_of_lt' h
  rw [extensionEntry, extensionBytes, List.append_assoc, bind_of_ok (reads_u16Be_toNat _ _), List.append_assoc,
    bind_of_ok (reads_u16Be _ _), hlen, bind_of_ok (reads_take _ _)]
  rfl

theorem progresses_extensionEntry : EntryProgresses extensionEntry :=
  fun _ _ _ h => takes_u16Be.bind_lt (by decide)
    (fun _ => exact_u16Be.bind fun _ => (exact_take _).bind fun _ => exact_pure _) h

/-- The area is these extensions, up to bytes that begin with none. -/
def HoldsExts (area : List UInt8) (exts : List (UInt16 × List UInt8)) : Prop :=
  (∀ e ∈ exts, e.2.length < 65536) ∧
    ∃ broken, area = exts.flatMap extensionBytes ++ broken ∧ NoEntry 4 extensionEntry broken

theorem HoldsExts.walk {area : List UInt8} {exts : List (UInt16 × List UInt8)} (h : HoldsExts area exts) :
    walkExtensions area = exts := by
  obtain ⟨hfits, broken, rfl, hbroken⟩ := h
  have hwalk : whileGood 4 extensionEntry (fun out e => out ++ [e]) [] (exts.flatMap extensionBytes ++ broken) =
      .ok (exts.foldl (fun out e => out ++ [e]) [], broken) :=
    whileGood_flatMap progresses_extensionEntry (fun e _ => four_le_extensionBytes e)
      (fun e he => extensionEntry_read (hfits e he)) [] hbroken
  rw [foldl_snoc (fun e : UInt16 × List UInt8 => e), List.nil_append, List.map_id'] at hwalk
  rw [walkExtensions, parse_eq_ok.2 ⟨broken, hwalk⟩]
  rfl

theorem helloExtensions_block {block : List UInt8} (h : block.length < 65536) (more : List UInt8) :
    helloExtensions (beBytes 2 block.length ++ (block ++ more)) = .ok (walkExtensions block, more) := by
  have hattempt : attempt (u16Be >>= fun n => take n.toNat) (beBytes 2 block.length ++ (block ++ more)) =
      .ok (some block, more) := by
    rw [attempt, take_read h]
  rw [helloExtensions, bind_of_ok hattempt]
  rfl

/-- Where the block is not there, no extension is. -/
theorem helloExtensions_error {e : ParseError} (h : (u16Be >>= fun n => take n.toNat) buf = .error e) :
    helloExtensions buf = .ok ([], buf) := by
  have hattempt : attempt (u16Be >>= fun n => take n.toNat) buf = .ok (none, buf) := by rw [attempt, h]
  rw [helloExtensions, bind_of_ok hattempt]
  rfl

theorem exists_helloExtensions (buf : List UInt8) : ∃ exts rest, helloExtensions buf = .ok (exts, rest) := by
  cases hblock : (u16Be >>= fun n => take n.toNat) buf with
  | error e => exact ⟨_, _, helloExtensions_error hblock⟩
  | ok r =>
      obtain ⟨block, rest⟩ := r
      have hattempt : attempt (u16Be >>= fun n => take n.toNat) buf = .ok (some block, rest) := by rw [attempt, hblock]
      exact ⟨_, rest, bind_of_ok hattempt⟩

theorem helloExtensions_blockBytes (block : Option ExtensionBlock) :
    helloExtensions (blockBytes block) = .ok (blockExts block, []) := by
  cases block with
  | none => exact helloExtensions_error (e := .truncated 2 0) rfl
  | some b =>
      have hholds : HoldsExts (b.exts.flatMap extensionBytes) b.exts :=
        ⟨b.data_fit, [], (List.append_nil _).symm, .inl (by decide)⟩
      have hread := helloExtensions_block b.block_fits []
      rw [List.append_nil, hholds.walk] at hread
      exact hread

/-! ### What the extensions leave -/

/-- A value that each extension of a type sets anew. -/
def overwritten {α : Type} (extType : UInt16) (f : List UInt8 → Option α → Option α)
    (exts : List (UInt16 × List UInt8)) (acc : Option α) : Option α :=
  exts.foldl (fun acc e => if e.1 = extType then f e.2 acc else acc) acc

section Overwritten

variable {α β : Type} {extType : UInt16} {f : List UInt8 → Option α → Option α} {exts : List (UInt16 × List UInt8)}
  {acc : Option α}

theorem overwritten_append (pre post : List (UInt16 × List UInt8)) :
    overwritten extType f (pre ++ post) acc = overwritten extType f post (overwritten extType f pre acc) :=
  List.foldl_append ..

theorem overwritten_absent (h : extType ∉ exts.map Prod.fst) : overwritten extType f exts acc = acc := by
  induction exts with
  | nil => rfl
  | cons e exts ih =>
      rw [List.map_cons, List.mem_cons, not_or] at h
      rw [overwritten, List.foldl_cons, if_neg (Ne.symm h.1)]
      exact ih h.2

/-- The last extension of the type decides. -/
theorem overwritten_last {pre post : List (UInt16 × List UInt8)} {data : List UInt8}
    (h : extType ∉ post.map Prod.fst) :
    overwritten extType f (pre ++ (extType, data) :: post) acc = f data (overwritten extType f pre acc) := by
  rw [overwritten_append, overwritten, List.foldl_cons, if_pos rfl]
  exact overwritten_absent h

/-- What the one extension of a type holds. -/
theorem Carries.overwritten {holds : List UInt8 → β → Prop} {o : Option β} (h : Carries exts extType holds o)
    (hdiffer : (exts.map Prod.fst).Nodup) {g : β → α} (hread : ∀ data b acc, holds data b → f data acc = some (g b)) :
    overwritten extType f exts acc = (o.map g).or acc := by
  cases h with
  | absent habsent => exact overwritten_absent habsent
  | @present data b hmem hholds =>
      obtain ⟨pre, post, rfl⟩ := List.append_of_mem hmem
      rw [List.map_append, List.map_cons] at hdiffer
      have hpost : extType ∉ post.map Prod.fst := (List.nodup_cons.1 (List.nodup_append.1 hdiffer).2.1).1
      rw [overwritten_last hpost, hread data b _ hholds]
      rfl

/-- A part of a hello that is none of those the extensions set. -/
theorem recordExtension_kept {part : Handshake → β} (hsni : ∀ hs v, part { hs with sni := v } = part hs)
    (halpn : ∀ hs v, part { hs with alpn := v } = part hs)
    (hversion : ∀ hs v, part { hs with tlsVersionSelected := v } = part hs) (hs : Handshake) (e : UInt16 × List UInt8) :
    part (recordExtension hs e) = part hs := by
  rw [recordExtension]
  split
  · exact hsni hs _
  · split
    · exact halpn hs _
    · split
      · split
        · exact hversion hs _
        · rfl
      · rfl

theorem hsType_recordExtension (hs : Handshake) (e : UInt16 × List UInt8) :
    (recordExtension hs e).hsType = hs.hsType :=
  recordExtension_kept (fun _ _ => rfl) (fun _ _ => rfl) (fun _ _ => rfl) hs e

/-- A part of a hello that each extension of one type sets anew. -/
theorem foldl_recordExtension {part : Handshake → Option α} {hsType : UInt8}
    (hstep : ∀ hs e, hs.hsType = hsType →
      part (recordExtension hs e) = if e.1 = extType then f e.2 (part hs) else part hs)
    {hs : Handshake} (h : hs.hsType = hsType) (exts : List (UInt16 × List UInt8)) :
    part (exts.foldl recordExtension hs) = overwritten extType f exts (part hs) := by
  induction exts generalizing hs with
  | nil => rfl
  | cons e exts ih =>
      rw [List.foldl_cons, ih ((hsType_recordExtension hs e).trans h), hstep hs e h]
      rfl

/-- A part of a hello that no extension sets. -/
theorem foldl_recordExtension_kept {part : Handshake → β} (hstep : ∀ hs e, part (recordExtension hs e) = part hs)
    (hs : Handshake) (exts : List (UInt16 × List UInt8)) : part (exts.foldl recordExtension hs) = part hs := by
  induction exts generalizing hs with
  | nil => rfl
  | cons e exts ih => rw [List.foldl_cons, ih, hstep]

end Overwritten

theorem cipherSuites_recordExtension (hs : Handshake) (e : UInt16 × List UInt8) :
    (recordExtension hs e).cipherSuites = hs.cipherSuites :=
  recordExtension_kept (fun _ _ => rfl) (fun _ _ => rfl) (fun _ _ => rfl) hs e

theorem selectedCipherSuite_recordExtension (hs : Handshake) (e : UInt16 × List UInt8) :
    (recordExtension hs e).selectedCipherSuite = hs.selectedCipherSuite :=
  recordExtension_kept (fun _ _ => rfl) (fun _ _ => rfl) (fun _ _ => rfl) hs e

/-- The host name of a ClientHello, as a value. -/
def sniValue (hs : Handshake) : Option Value := hs.sni.map fun s => .str (String.ofList s)

/-- The protocols of a ClientHello, as a value. -/
def alpnValue (hs : Handshake) : Option Value := hs.alpn.map Value.list

theorem sniValue_recordExtension (hs : Handshake) (e : UInt16 × List UInt8) (h : hs.hsType = 1) :
    sniValue (recordExtension hs e) =
      if e.1 = 0 then (parseSni e.2).map fun s => .str (String.ofList s) else sniValue hs := by
  rw [recordExtension]
  by_cases hname : e.1 = 0
  · rw [if_pos ⟨hname, h⟩, if_pos hname]
    rfl
  · rw [if_neg fun hboth => hname hboth.1, if_neg hname]
    split
    · rfl
    · rw [if_neg (by simp [h])]

theorem alpnValue_recordExtension (hs : Handshake) (e : UInt16 × List UInt8) (h : hs.hsType = 1) :
    alpnValue (recordExtension hs e) = if e.1 = 16 then (parseAlpn e.2).map Value.list else alpnValue hs := by
  rw [recordExtension]
  by_cases halpn : e.1 = 16
  · rw [if_neg (by simp [halpn]), if_pos ⟨halpn, h⟩, if_pos halpn]
    rfl
  · rw [if_neg halpn]
    split
    · rfl
    · rw [if_neg fun hboth => halpn hboth.1, if_neg (by simp [h])]

/-- The host name that a ClientHello with these extensions leaves. -/
theorem sniValue_foldl (exts : List (UInt16 × List UInt8)) (suites : List Value) :
    sniValue (exts.foldl recordExtension { hsType := 1, cipherSuites := some suites }) =
      overwritten 0 (fun data _ => (parseSni data).map fun s => Value.str (String.ofList s)) exts none :=
  foldl_recordExtension sniValue_recordExtension rfl exts

/-- The protocols that it leaves. -/
theorem alpnValue_foldl (exts : List (UInt16 × List UInt8)) (suites : List Value) :
    alpnValue (exts.foldl recordExtension { hsType := 1, cipherSuites := some suites }) =
      overwritten 16 (fun data _ => (parseAlpn data).map Value.list) exts none :=
  foldl_recordExtension alpnValue_recordExtension rfl exts

/-- The version that an extension selects. -/
def selectVersion (data : List UInt8) (acc : Option UInt16) : Option UInt16 :=
  match u16Be.parse data with
  | .ok v => some v
  | .error _ => acc

theorem version_recordExtension (hs : Handshake) (e : UInt16 × List UInt8) (h : hs.hsType = 2) :
    (recordExtension hs e).tlsVersionSelected =
      if e.1 = 43 then selectVersion e.2 hs.tlsVersionSelected else hs.tlsVersionSelected := by
  rw [recordExtension, if_neg (by simp [h]), if_neg (by simp [h]), selectVersion]
  by_cases hversion : e.1 = 43
  · rw [if_pos ⟨hversion, h⟩, if_pos hversion]
    split <;> rfl
  · rw [if_neg fun hboth => hversion hboth.1, if_neg hversion]

/-! ### Host names and protocols -/

theorem parseSni_of_holds {data name : List UInt8} (h : HoldsName data name) : parseSni data = some (Text.lossy name) := by
  cases h with
  | mk listLen name more hfits =>
      have hlen : (UInt16.ofNat name.length).toNat = name.length := UInt16.toNat_ofNat_of_lt' hfits
      have hread : serverNameReader (beBytes 2 listLen.toNat ++ (0 :: (beBytes 2 name.length ++ (name ++ more)))) =
          .ok ((0, name), more) := by
        rw [serverNameReader, bind_of_ok (reads_u16Be_toNat _ _), bind_of_ok (u8_cons _ _), bind_of_ok (reads_u16Be _ _), hlen,
          bind_of_ok (reads_take _ _)]
        rfl
      rw [parseSni, parse_eq_ok.2 ⟨more, hread⟩]
      rfl

theorem u16Be_split {v : UInt16} (h : u16Be buf = .ok (v, rest)) : buf = beBytes 2 v.toNat ++ rest := by
  obtain ⟨bs, rfl, hlen, rfl⟩ := u16Be_eq_ok.1 h
  rw [beBytes_word hlen]

theorem holds_of_parseSni {data : List UInt8} {t : Text} (h : parseSni data = some t) :
    ∃ name, HoldsName data name ∧ t = Text.lossy name := by
  rw [parseSni, Option.bind_eq_some_iff] at h
  obtain ⟨⟨nameType, name⟩, hparse, hname⟩ := h
  dsimp only at hname
  obtain ⟨rest, hread⟩ := toOption_parse_eq_some.1 hparse
  obtain ⟨listLen, buf₁, hlist, hread⟩ := bind_eq_ok.1 hread
  obtain ⟨type, buf₂, htype, hread⟩ := bind_eq_ok.1 hread
  obtain ⟨nameLen, buf₃, hlen, hread⟩ := bind_eq_ok.1 hread
  obtain ⟨taken, buf₄, htake, hpure⟩ := bind_eq_ok.1 hread
  obtain ⟨heq, rfl⟩ := pure_eq_ok.1 hpure
  obtain ⟨rfl, rfl⟩ := Prod.mk.inj heq
  obtain ⟨rfl, hcount⟩ := take_eq_ok.1 htake
  have hzero : nameType = 0 := by
    by_contra hne
    rw [if_neg hne] at hname
    cases hname
  rw [if_pos hzero] at hname
  rw [u16Be_split hlist, u8_eq_ok.1 htype, u16Be_split hlen, hzero, ← hcount]
  refine ⟨name, .mk listLen name rest ?_, (Option.some.inj hname).symm⟩
  rw [hcount]
  exact nameLen.toNat_lt

/-- The data of an extension tells a host name. -/
def TellsName (data : List UInt8) (v : Value) : Prop := ∃ name, HoldsName data name ∧ v = lossyValue name

theorem parseSni_eq_some {data : List UInt8} {v : Value} :
    ((parseSni data).map fun s => Value.str (String.ofList s)) = some v ↔ TellsName data v := by
  constructor
  · intro h
    obtain ⟨t, ht, rfl⟩ := Option.map_eq_some_iff.1 h
    obtain ⟨name, hholds, rfl⟩ := holds_of_parseSni ht
    exact ⟨name, hholds, rfl⟩
  · rintro ⟨name, hholds, rfl⟩
    rw [parseSni_of_holds hholds]
    rfl

theorem progresses_protocolEntry : ItemProgresses protocolEntry :=
  fun _ _ _ _ h => takes_u8.bind_lt Nat.zero_lt_one (fun _ => (exact_take _).bind fun _ => exact_pure _) h

theorem protocolEntry_read {name : List UInt8} (h : name.length < 256) (protos : List Value) :
    Reads (protocolEntry protos) (protocolBytes name) (protos ++ [lossyValue name]) := by
  apply (reads_u8 _).bind
  rw [toNat_byte h]
  exact reads_map (reads_take name) _

/-- The data of an extension tells a list of protocols. -/
def TellsProtocols (data : List UInt8) (v : Value) : Prop :=
  ∃ names, HoldsProtocols data names ∧ v = .list (names.map lossyValue)

theorem parseAlpn_of_holds {data : List UInt8} {names : List (List UInt8)} (h : HoldsProtocols data names) :
    parseAlpn data = some (names.map lossyValue) := by
  cases h with
  | mk listLen _ hne hfits =>
      have hwalk := whileLeft_collect progresses_protocolEntry (fun n (_ : n ∈ names) => Nat.succ_pos n.length)
        (fun n hn protos => protocolEntry_read (hfits n hn) protos) (List.length_nil.trans_lt Nat.one_pos)
      obtain ⟨rest, hwalk⟩ := parse_eq_ok.1 hwalk
      rw [List.append_nil] at hwalk
      have hread : protocolsReader (beBytes 2 listLen.toNat ++ names.flatMap protocolBytes) =
          .ok (names.map lossyValue, rest) := by
        rw [protocolsReader, bind_of_ok (reads_u16Be_toNat _ _)]
        exact hwalk
      have hsome : (!(names.map lossyValue).isEmpty) = true := by simpa using hne
      rw [parseAlpn, parse_eq_ok.2 ⟨rest, hread⟩]
      exact Option.filter_some_pos hsome

theorem holds_of_parseAlpn {data : List UInt8} {protos : List Value} (h : parseAlpn data = some protos) :
    ∃ names, HoldsProtocols data names ∧ protos = names.map lossyValue := by
  rw [parseAlpn, Option.filter_eq_some_iff] at h
  obtain ⟨hparse, hsome⟩ := h
  obtain ⟨rest, hread⟩ := toOption_parse_eq_some.1 hparse
  obtain ⟨listLen, body, hlist, hwalk⟩ := bind_eq_ok.1 hread
  -- so far the protocols collected are those of the names in front
  have hstep : ∀ (collected : List Value) (buf : List UInt8) (collected' : List Value) (rest : List UInt8),
      1 ≤ buf.length → protocolEntry collected buf = .ok (collected', rest) →
      (∃ names : List (List UInt8), collected = names.map lossyValue ∧ (∀ n ∈ names, n.length < 256) ∧
        body = names.flatMap protocolBytes ++ buf) →
      ∃ names : List (List UInt8), collected' = names.map lossyValue ∧ (∀ n ∈ names, n.length < 256) ∧
        body = names.flatMap protocolBytes ++ rest := by
    rintro collected buf collected' rest - hentry ⟨names, rfl, hfits, rfl⟩
    obtain ⟨plen, buf₁, hplen, hentry⟩ := bind_eq_ok.1 hentry
    obtain ⟨name, buf₂, htake, hpure⟩ := bind_eq_ok.1 hentry
    obtain ⟨rfl, rfl⟩ := pure_eq_ok.1 hpure
    obtain ⟨rfl, hcount⟩ := take_eq_ok.1 htake
    obtain rfl := u8_eq_ok.1 hplen
    have hlt : name.length < 256 := by
      rw [hcount]
      exact plen.toNat_lt
    refine ⟨names ++ [name], by simp, ?_, ?_⟩
    · intro n hn
      rcases List.mem_append.1 hn with hn | hn
      · exact hfits n hn
      · rwa [List.mem_singleton.1 hn]
    · rw [List.flatMap_append, List.flatMap_singleton, protocolBytes, hcount, UInt8.ofNat_toNat]
      simp
  obtain ⟨⟨names, rfl, hfits, hbody⟩, hleft⟩ :=
    whileLeft_induction progresses_protocolEntry hstep hwalk ⟨[], rfl, by simp, rfl⟩
  rw [List.eq_nil_of_length_eq_zero (Nat.lt_one_iff.1 hleft), List.append_nil] at hbody
  refine ⟨names, ?_, rfl⟩
  rw [u16Be_split hlist, hbody]
  exact .mk listLen names (by simpa using hsome) hfits

theorem parseAlpn_eq_some {data : List UInt8} {v : Value} :
    (parseAlpn data).map Value.list = some v ↔ TellsProtocols data v := by
  constructor
  · intro h
    obtain ⟨protos, hprotos, rfl⟩ := Option.map_eq_some_iff.1 h
    obtain ⟨names, hholds, rfl⟩ := holds_of_parseAlpn hprotos
    exact ⟨names, hholds, rfl⟩
  · rintro ⟨names, hholds, rfl⟩
    rw [parseAlpn_of_holds hholds]
    rfl

/-! ### Hellos -/

/-- What a handshake of another type is read as. -/
theorem parseHandshake_other {t a b c : UInt8} (h : t ≠ 1 ∧ t ≠ 2) (body : List UInt8) :
    parseHandshake (t :: a :: b :: c :: body) true = some { hsType := t } := by
  have hread : handshakeReader true (t :: a :: b :: c :: body) = .ok ({ hsType := t }, body) := by
    rw [handshakeReader, bind_of_ok (u8_cons _ _), bind_of_ok (u8_cons _ _), bind_of_ok (u8_cons _ _),
      bind_of_ok (u8_cons _ _), if_pos (.inr h)]
    rfl
  rw [parseHandshake, parse_eq_ok.2 ⟨_, hread⟩]
  rfl

theorem handshakeReader_client (a b c : UInt8) (body : List UInt8) :
    handshakeReader true (1 :: a :: b :: c :: body) = (clientFixed >>= fun csBytes => helloExtensions >>= fun exts =>
      pure (exts.foldl recordExtension { hsType := 1, cipherSuites := some (cipherSuites csBytes) })) body := by
  rw [handshakeReader, bind_of_ok (u8_cons _ _), bind_of_ok (u8_cons _ _), bind_of_ok (u8_cons _ _),
    bind_of_ok (u8_cons _ _), if_neg (by simp), if_pos rfl]

theorem handshakeReader_server (a b c : UInt8) (body : List UInt8) :
    handshakeReader true (2 :: a :: b :: c :: body) = (serverFixed >>= fun fixed => helloExtensions >>= fun exts =>
      pure (exts.foldl recordExtension
        { hsType := 2, selectedCipherSuite := some fixed.1, tlsVersionSelected := some fixed.2 })) body := by
  rw [handshakeReader, bind_of_ok (u8_cons _ _), bind_of_ok (u8_cons _ _), bind_of_ok (u8_cons _ _),
    bind_of_ok (u8_cons _ _), if_neg (by simp), if_neg (by decide)]

/-- What a ClientHello is read as. -/
theorem parseHandshake_client {a b c : UInt8} {body cs mid : List UInt8} {exts : List (UInt16 × List UInt8)}
    (hfixed : clientFixed body = .ok (cs, mid)) (hexts : helloExtensions mid = .ok (exts, rest)) :
    parseHandshake (1 :: a :: b :: c :: body) true =
      some (exts.foldl recordExtension { hsType := 1, cipherSuites := some (cipherSuites cs) }) := by
  have hread := (handshakeReader_client a b c body).trans ((bind_of_ok hfixed).trans (bind_of_ok hexts))
  rw [parseHandshake, parse_eq_ok.2 ⟨_, hread⟩]
  rfl

/-- A ClientHello that ends in front of its extensions is not read at all. -/
theorem parseHandshake_client_error {a b c : UInt8} {body : List UInt8} {e : ParseError}
    (h : clientFixed body = .error e) : parseHandshake (1 :: a :: b :: c :: body) true = none := by
  rw [parseHandshake, parse_of_error ((handshakeReader_client a b c body).trans (bind_of_error h))]
  rfl

/-- What a ServerHello is read as. -/
theorem parseHandshake_server {a b c : UInt8} {body mid : List UInt8} {suite version : UInt16}
    {exts : List (UInt16 × List UInt8)} (hfixed : serverFixed body = .ok ((suite, version), mid))
    (hexts : helloExtensions mid = .ok (exts, rest)) :
    parseHandshake (2 :: a :: b :: c :: body) true = some (exts.foldl recordExtension
      { hsType := 2, selectedCipherSuite := some suite, tlsVersionSelected := some version }) := by
  have hread := (handshakeReader_server a b c body).trans ((bind_of_ok hfixed).trans (bind_of_ok hexts))
  rw [parseHandshake, parse_eq_ok.2 ⟨_, hread⟩]
  rfl

theorem parseHandshake_server_error {a b c : UInt8} {body : List UInt8} {e : ParseError}
    (h : serverFixed body = .error e) : parseHandshake (2 :: a :: b :: c :: body) true = none := by
  rw [parseHandshake, parse_of_error ((handshakeReader_server a b c body).trans (bind_of_error h))]
  rfl

/-- What a whole ClientHello is read as. -/
theorem parseHandshake_clientHello (h : ClientHello) :
    parseHandshake (handshakeBytes 1 h.body) true = some ((blockExts h.block).foldl recordExtension
      { hsType := 1, cipherSuites := some (cipherSuites h.fixed.suiteBytes) }) :=
  parseHandshake_client (clientFixed_read h.fixed _) (helloExtensions_blockBytes h.block)

theorem parseHandshake_serverHello (h : ServerHello) :
    parseHandshake (handshakeBytes 2 h.body) true = some ((blockExts h.block).foldl recordExtension
      { hsType := 2, selectedCipherSuite := some h.suite, tlsVersionSelected := some h.head.legacyVersion }) :=
  parseHandshake_server (serverFixed_read h.head h.suite h.compression _) (helloExtensions_blockBytes h.block)

theorem blockExts_differ (block : Option ExtensionBlock) : ((blockExts block).map Prod.fst).Nodup := by
  cases block with
  | none => exact List.nodup_nil
  | some b => exact b.differ

theorem lossyValue_encode (t : Text) : lossyValue (Text.encode t) = textField t := by
  rw [lossyValue, Text.lossy_encode, textField]

theorem reads_clientHello (h : ClientHello) {r : TlsRecord} (hr : r.fragment = handshakeBytes 1 h.body)
    (hctx : atDepth ctx .full = true) (more : List UInt8) :
    ∃ layer, tls.parse (r.bytes ++ more) ctx = .ok layer ∧ ReadsClient h layer := by
  have hstructural := atDepth_of_full hctx .structural
  have hnodup := blockExts_differ h.block
  refine ⟨_, parse_record r more, ?_⟩
  rw [hstructural, hr, parseHandshake_clientHello]
  -- Each field on its own: the header, then what the extensions leave of it.
  constructor
  case headerLen => rfl
  case handshakeType =>
    rw [get_handshakeType hstructural, Option.map_some]
    have htype := foldl_recordExtension_kept hsType_recordExtension
      { hsType := 1, cipherSuites := some (cipherSuites h.fixed.suiteBytes) } (blockExts h.block)
    rw [htype]
    rfl
  case cipherSuites =>
    rw [get_cipherSuites hctx, Option.bind_some, foldl_recordExtension_kept cipherSuites_recordExtension,
      h.suites_held, cipherSuites_suiteList]
    rfl
  case sni =>
    have hname := sniValue_foldl (blockExts h.block) (cipherSuites h.fixed.suiteBytes)
    have hread : ∀ (data : List UInt8) (t : Text) (acc : Option Value), HoldsName data (Text.encode t) →
        ((parseSni data).map fun s => Value.str (String.ofList s)) = some (textField t) := by
      intro data t acc hholds
      rw [parseSni_of_holds hholds, Text.lossy_encode]
      rfl
    rw [get_sni hstructural, Option.bind_some]
    refine hname.trans ((h.hostName_held.overwritten hnodup hread).trans ?_)
    exact Option.or_none
  case alpn =>
    have halpn := alpnValue_foldl (blockExts h.block) (cipherSuites h.fixed.suiteBytes)
    have hread : ∀ (data : List UInt8) (ts : List Text) (acc : Option Value),
        HoldsProtocols data (ts.map Text.encode) → (parseAlpn data).map Value.list = some (.list (ts.map textField)) := by
      intro data ts acc hholds
      rw [parseAlpn_of_holds hholds, List.map_map]
      exact congrArg (fun f => some (Value.list (ts.map f))) (funext lossyValue_encode)
    rw [get_alpn hctx, Option.bind_some]
    refine halpn.trans ((h.protocols_held.overwritten hnodup hread).trans ?_)
    exact Option.or_none

theorem reads_serverHello (h : ServerHello) {r : TlsRecord} (hr : r.fragment = handshakeBytes 2 h.body)
    (hctx : atDepth ctx .full = true) (more : List UInt8) :
    ∃ layer, tls.parse (r.bytes ++ more) ctx = .ok layer ∧ ReadsServer h layer := by
  have hstructural := atDepth_of_full hctx .structural
  refine ⟨_, parse_record r more, ?_⟩
  rw [hstructural, hr, parseHandshake_serverHello]
  constructor
  case headerLen => rfl
  case handshakeType =>
    rw [get_handshakeType hstructural, Option.map_some, foldl_recordExtension_kept hsType_recordExtension]
    rfl
  case selectedCipherSuite =>
    rw [get_selectedCipherSuite hctx, Option.bind_some,
      foldl_recordExtension_kept selectedCipherSuite_recordExtension]
    rfl
  case tlsVersionSelected =>
    have hread : ∀ (data : List UInt8) (v : UInt16) (acc : Option UInt16), data = beBytes 2 v.toNat →
        selectVersion data acc = some v := by
      rintro data v acc rfl
      have hv := reads_u16Be_toNat v []
      rw [List.append_nil] at hv
      rw [selectVersion, parse_eq_ok.2 ⟨[], hv⟩]
    rw [get_tlsVersionSelected hctx, Option.bind_some, foldl_recordExtension version_recordExtension rfl,
      h.supportedVersion_held.overwritten (blockExts_differ h.block) hread]
    cases h.supportedVersion <;> rfl

/-- A hello that fits in one record is read back, whatever follows the record. -/
theorem parse_tls_hello :
    (∀ (h : ClientHello) (r : TlsRecord), r.fragment = handshakeBytes 1 h.body → ∀ (ctx : ParseCtx) (more : List UInt8),
      atDepth ctx .full = true → ∃ layer, tls.parse (r.bytes ++ more) ctx = .ok layer ∧ ReadsClient h layer) ∧
    ∀ (h : ServerHello) (r : TlsRecord), r.fragment = handshakeBytes 2 h.body → ∀ (ctx : ParseCtx) (more : List UInt8),
      atDepth ctx .full = true → ∃ layer, tls.parse (r.bytes ++ more) ctx = .ok layer ∧ ReadsServer h layer := by
  constructor
  · intro h r hr ctx more hctx
    exact reads_clientHello h hr hctx more
  · intro h r hr ctx more hctx
    exact reads_serverHello h hr hctx more

/-- The head of a hello of TLS 1.3. -/
def helloHead13 : HelloHead where
  legacyVersion := 0x0303
  random := List.replicate 32 0
  sessionId := []
  random_length := rfl
  sessionId_fits := by simp

/-- A ClientHello with two cipher suites, for the host `a.b`, that offers `h2` and sends ALPN first. -/
def clientHello13 : ClientHello where
  fixed := ⟨helloHead13, [0x13, 1, 0x13, 2], [0], by simp, by simp⟩
  suites := [0x1301, 0x1302]
  block := some
    { exts := [(16, [0, 3, 2, 0x68, 0x32]), (0, [0, 6, 0, 0, 3, 0x61, 0x2E, 0x62])]
      differ := by simp
      data_fit := by simp
      block_fits := by decide }
  hostName := some ['a', '.', 'b']
  protocols := some [['h', '2']]
  suites_held := rfl
  hostName_held := by
    apply Carries.present
    · exact List.mem_cons_of_mem _ List.mem_cons_self
    · exact .mk 6 [0x61, 0x2E, 0x62] [] (by simp)
  protocols_held := by
    apply Carries.present List.mem_cons_self
    exact .mk 3 [[0x68, 0x32]] (by simp) (by simp)

/-- The record it is sent in. -/
def clientRecord13 : TlsRecord := ⟨0x0301, handshakeBytes 1 clientHello13.body, rfl, by decide⟩

example : (tls.parse (clientRecord13.bytes ++ [0x17]) ⟨[], .full, ⟨0, 76, 76, 1⟩⟩).toOption.map (fun layer =>
    (layer.headerLen, layer.fields.get "sni", layer.fields.get "alpn")) =
    some (75, some (.str "a.b"), some (.list [.str "h2"])) := by
  decide

/-- A ServerHello that selects TLS 1.3 in its extensions. -/
def serverHello13 : ServerHello where
  head := helloHead13
  suite := 0x1301
  compression := 0
  block := some
    { exts := [(43, [3, 4])]
      differ := by simp
      data_fit := by simp
      block_fits := by decide }
  supportedVersion := some 0x0304
  supportedVersion_held := .present List.mem_cons_self rfl

/-- The record it is sent in. -/
def serverRecord13 : TlsRecord := ⟨0x0303, handshakeBytes 2 serverHello13.body, rfl, by decide⟩

example : (tls.parse serverRecord13.bytes ⟨[], .full, ⟨0, 55, 55, 1⟩⟩).toOption.map (fun layer =>
    (layer.headerLen, layer.fields.get "tls_version_selected")) = some (55, some (.u64 0x0304)) := by
  decide

/-! ### Hellos that are cut -/

theorem helloHead_eq_ok {v : UInt16} (h : helloHead buf = .ok (v, rest)) :
    ∃ head : HelloHead, buf = head.bytes ++ rest ∧ v = head.legacyVersion := by
  obtain ⟨version, buf₁, hversion, h⟩ := bind_eq_ok.1 h
  obtain ⟨random, buf₂, hrandom, h⟩ := bind_eq_ok.1 h
  obtain ⟨sidLen, buf₃, hlen, h⟩ := bind_eq_ok.1 h
  obtain ⟨sid, buf₄, hsid, hpure⟩ := bind_eq_ok.1 h
  obtain ⟨rfl, rfl⟩ := pure_eq_ok.1 hpure
  obtain ⟨rfl, hcount⟩ := take_eq_ok.1 hsid
  obtain ⟨rfl, hthirtyTwo⟩ := take_eq_ok.1 hrandom
  have hfits : sid.length < 256 := by
    rw [hcount]
    exact sidLen.toNat_lt
  refine ⟨⟨v, random, sid, hthirtyTwo, hfits⟩, ?_, rfl⟩
  rw [u16Be_split hversion, u8_eq_ok.1 hlen, HelloHead.bytes, hcount, UInt8.ofNat_toNat]
  simp

theorem clientFixed_eq_ok {cs : List UInt8} (h : clientFixed buf = .ok (cs, rest)) :
    ∃ fixed : ClientFixed, buf = fixed.bytes ++ rest ∧ cs = fixed.suiteBytes := by
  obtain ⟨version, buf₁, hhead, h⟩ := bind_eq_ok.1 h
  obtain ⟨csLen, buf₂, hcsLen, h⟩ := bind_eq_ok.1 h
  obtain ⟨suites, buf₃, hsuites, h⟩ := bind_eq_ok.1 h
  obtain ⟨compLen, buf₄, hcompLen, h⟩ := bind_eq_ok.1 h
  obtain ⟨comp, buf₅, hcomp, hpure⟩ := bind_eq_ok.1 h
  obtain ⟨rfl, rfl⟩ := pure_eq_ok.1 hpure
  obtain ⟨head, rfl, -⟩ := helloHead_eq_ok hhead
  obtain ⟨rfl, hcount⟩ := take_eq_ok.1 hcomp
  obtain ⟨rfl, hcs⟩ := take_eq_ok.1 hsuites
  have hcompFits : comp.length < 256 := by
    rw [hcount]
    exact compLen.toNat_lt
  have hcsFits : cs.length < 65536 := by
    rw [hcs]
    exact csLen.toNat_lt
  refine ⟨⟨head, cs, comp, hcsFits, hcompFits⟩, ?_, rfl⟩
  rw [u16Be_split hcsLen, u8_eq_ok.1 hcompLen, ClientFixed.bytes, hcount, hcs, UInt8.ofNat_toNat]
  simp

theorem serverFixed_eq_ok {suite version : UInt16} (h : serverFixed buf = .ok ((suite, version), rest)) :
    ∃ (head : HelloHead) (compression : UInt8), buf = head.bytes ++ (beBytes 2 suite.toNat ++ compression :: rest) := by
  obtain ⟨version', buf₁, hhead, h⟩ := bind_eq_ok.1 h
  obtain ⟨suite', buf₂, hsuite, h⟩ := bind_eq_ok.1 h
  obtain ⟨compression, buf₃, hcompression, hpure⟩ := bind_eq_ok.1 h
  obtain ⟨heq, rfl⟩ := pure_eq_ok.1 hpure
  obtain ⟨rfl, rfl⟩ := Prod.mk.inj heq
  obtain ⟨head, rfl, -⟩ := helloHead_eq_ok hhead
  refine ⟨head, compression, ?_⟩
  rw [u16Be_split hsuite, u8_eq_ok.1 hcompression]

/-- Any area begins with extensions, up to bytes that begin with none. -/
theorem holdsExts_walkExtensions (area : List UInt8) : HoldsExts area (walkExtensions area) := by
  have hread : ∀ buf e rest, extensionEntry buf = .ok (e, rest) →
      ∃ e : { e : UInt16 × List UInt8 // e.2.length < 65536 }, buf = extensionBytes e.1 ++ rest := by
    intro buf e rest h
    obtain ⟨extType, buf₁, htype, h⟩ := bind_eq_ok.1 h
    obtain ⟨extLen, buf₂, hlen, h⟩ := bind_eq_ok.1 h
    obtain ⟨data, buf₃, hdata, hpure⟩ := bind_eq_ok.1 h
    obtain ⟨rfl, rfl⟩ := pure_eq_ok.1 hpure
    obtain ⟨rfl, hcount⟩ := take_eq_ok.1 hdata
    have hfits : data.length < 65536 := by
      rw [hcount]
      exact extLen.toNat_lt
    refine ⟨⟨(extType, data), hfits⟩, ?_⟩
    rw [u16Be_split htype, u16Be_split hlen, extensionBytes, hcount]
    simp
  obtain ⟨exts, broken, harea, hbroken⟩ := exists_entries progresses_extensionEntry hread area
  have hholds : HoldsExts area (exts.map Subtype.val) := by
    refine ⟨?_, broken, ?_, hbroken⟩
    · intro e he
      obtain ⟨e, -, rfl⟩ := List.mem_map.1 he
      exact e.2
    · rw [harea, List.flatMap_map]
  rwa [hholds.walk]

/-- The last extension of a type that tells a value, and the value. -/
def LastTold (exts : List (UInt16 × List UInt8)) (extType : UInt16) (tells : List UInt8 → Value → Prop) (v : Value) :
    Prop :=
  ∃ pre data post, exts = pre ++ (extType, data) :: post ∧ tells data v ∧
    ∀ d, (extType, d) ∈ post → ∀ w, ¬tells d w

/-- If an extension of the type tells a value, the last of the type does. -/
def LastIsWhole (exts : List (UInt16 × List UInt8)) (extType : UInt16) (tells : List UInt8 → Value → Prop) : Prop :=
  ∀ d v, (extType, d) ∈ exts → tells d v →
    ∃ pre data post w, exts = pre ++ (extType, data) :: post ∧ tells data w ∧ extType ∉ post.map Prod.fst

/-- Of the elements with a property there is a last one. -/
theorem exists_last {ι : Type} {P : ι → Prop} {xs : List ι} (h : ∃ x ∈ xs, P x) :
    ∃ pre x post, xs = pre ++ x :: post ∧ P x ∧ ∀ y ∈ post, ¬P y := by
  induction xs with
  | nil =>
      obtain ⟨x, hx, -⟩ := h
      cases hx
  | cons x xs ih =>
      by_cases hmore : ∃ y ∈ xs, P y
      · obtain ⟨pre, y, post, rfl, hy, hpost⟩ := ih hmore
        exact ⟨x :: pre, y, post, rfl, hy, hpost⟩
      · obtain ⟨y, hy, hP⟩ := h
        rcases List.mem_cons.1 hy with rfl | hy
        · exact ⟨[], y, xs, rfl, hP, fun z hz hPz => hmore ⟨z, hz, hPz⟩⟩
        · exact absurd ⟨y, hy, hP⟩ hmore

section Last

variable {exts : List (UInt16 × List UInt8)} {extType : UInt16} {tells : List UInt8 → Value → Prop}
  {p : List UInt8 → Option Value}

/-- What the last extension of the type sets is the last value told, if and only if the last of the type tells one
where any does. -/
theorem overwritten_lastTold_iff (hp : ∀ d v, p d = some v ↔ tells d v) :
    (∀ v, LastTold exts extType tells v → overwritten extType (fun d _ => p d) exts none = some v) ↔
      LastIsWhole exts extType tells := by
  constructor
  · intro hkept d v hmem htells
    obtain ⟨pre, ⟨type, data⟩, post, hexts, rfl, hpost⟩ :=
      exists_last (P := fun e : UInt16 × List UInt8 => e.1 = extType) ⟨(extType, d), hmem, rfl⟩
    obtain ⟨pre', ⟨type', data'⟩, post', hexts', ⟨htype', w, htells'⟩, hpost'⟩ :=
      exists_last (P := fun e : UInt16 × List UInt8 => e.1 = type ∧ ∃ w, tells e.2 w)
        ⟨(type, d), hmem, rfl, v, htells⟩
    have hnone : type ∉ post.map Prod.fst := by
      intro hmem
      obtain ⟨e, he, hetype⟩ := List.mem_map.1 hmem
      exact hpost e he hetype
    have hlast : LastTold exts type tells w := by
      obtain rfl : type' = type := htype'
      exact ⟨pre', data', post', hexts', htells', fun d hd w hw => hpost' _ hd ⟨rfl, w, hw⟩⟩
    have hsome := hkept w hlast
    rw [hexts, overwritten_last hnone] at hsome
    exact ⟨pre, data, post, w, hexts, (hp data w).1 hsome, hnone⟩
  · rintro hwhole v ⟨pre, data, post, hexts, htells, hpost⟩
    have hmem : (extType, data) ∈ exts := by
      rw [hexts]
      exact List.mem_append_right _ List.mem_cons_self
    obtain ⟨pre', data', post', w, hexts', htells', hnone⟩ := hwhole data v hmem htells
    -- the two are the same extension: neither stands behind the other
    have hsame : data = data' := by
      rcases List.append_eq_append_iff.1 (hexts.symm.trans hexts') with ⟨between, hpre, htail⟩ | ⟨between, hpre, htail⟩
      · cases between with
        | nil => exact (Prod.mk.inj (List.cons.inj htail).1).2
        | cons e between =>
            obtain ⟨-, rfl⟩ := List.cons.inj htail
            exact absurd htells' (hpost data' (List.mem_append_right _ List.mem_cons_self) w)
      · cases between with
        | nil => exact (Prod.mk.inj (List.cons.inj htail).1).2.symm
        | cons e between =>
            obtain ⟨-, rfl⟩ := List.cons.inj htail
            exact absurd (List.mem_map.2 ⟨_, List.mem_append_right _ List.mem_cons_self, rfl⟩) hnone
    rw [hexts', overwritten_last hnone, ← hsame]
    exact (hp data v).2 htells

end Last

/-- The bytes of a handshake fragment up to a place hold a field wholly: the cipher suites, the suite that was selected,
or, in an extension that is complete, a host name or a list of protocols. The place is where the bytes of the fragment,
or of what a length in it leaves of them, run out. -/
inductive LiesBefore : List UInt8 → FieldName → Value → Prop where
  | cipherSuites (a b c : UInt8) (head : HelloHead) (suites : List UInt16) (more : List UInt8)
      (hfits : (suiteList suites).length < 65536) :
      LiesBefore (1 :: a :: b :: c :: (head.bytes ++ (beBytes 2 (suiteList suites).length ++ (suiteList suites ++ more))))
        "cipher_suites" (.list (suites.map fun s => .u64 s.toUInt64))
  | selected (a b c : UInt8) (head : HelloHead) (suite : UInt16) (more : List UInt8) :
      LiesBefore (2 :: a :: b :: c :: (head.bytes ++ (beBytes 2 suite.toNat ++ more))) "selected_cipher_suite"
        (.u64 suite.toUInt64)
  | hostName (a b c : UInt8) (fixed : ClientFixed) (total : UInt16) (more : List UInt8)
      {exts : List (UInt16 × List UInt8)} {v : Value} (hexts : HoldsExts (more.take total.toNat) exts)
      (hlast : LastTold exts 0 TellsName v) :
      LiesBefore (1 :: a :: b :: c :: (fixed.bytes ++ (beBytes 2 total.toNat ++ more))) "sni" v
  | protocols (a b c : UInt8) (fixed : ClientFixed) (total : UInt16) (more : List UInt8)
      {exts : List (UInt16 × List UInt8)} {v : Value} (hexts : HoldsExts (more.take total.toNat) exts)
      (hlast : LastTold exts 16 TellsProtocols v) :
      LiesBefore (1 :: a :: b :: c :: (fixed.bytes ++ (beBytes 2 total.toNat ++ more))) "alpn" v

/-- A handshake record whose fragment has at least the header of a message. -/
structure HandshakeRecord extends TlsRecord where
  header : 4 ≤ fragment.length

/-- The plugin keeps the type of the message, and each field that lies wholly before the malformed place. -/
def KeepsFields (r : HandshakeRecord) : Prop :=
  ∀ ctx more, ∃ layer, tls.parse (r.bytes ++ more) ctx = .ok layer ∧
    (atDepth ctx .structural = true →
      layer.fields.get "handshake_type" = r.fragment.head?.map fun t => .u64 t.toUInt64) ∧
    (atDepth ctx .full = true → ∀ name v, LiesBefore r.fragment name v → layer.fields.get name = some v)

/-- The fragments of which nothing is lost: those of no hello; a ServerHello that is there up to its compression method;
a ClientHello that is there up to its compression methods and either ends there, or has its whole block of extensions, in
which the last server_name and the last ALPN extension are well-formed if any is, or has only a part of the block, in
which no extension that is complete tells a host name or protocols. -/
inductive Spared : List UInt8 → Prop where
  | other {t : UInt8} (ht : t ≠ 1 ∧ t ≠ 2) (body : List UInt8) : Spared (t :: body)
  | server (a b c : UInt8) (head : HelloHead) (suite : UInt16) (compression : UInt8) (more : List UInt8) :
      Spared (2 :: a :: b :: c :: (head.bytes ++ (beBytes 2 suite.toNat ++ compression :: more)))
  | bare (a b c : UInt8) (fixed : ClientFixed) {more : List UInt8} (hmore : more.length < 2) :
      Spared (1 :: a :: b :: c :: (fixed.bytes ++ more))
  | whole (a b c : UInt8) (fixed : ClientFixed) (total : UInt16) {more : List UInt8} (hwhole : total.toNat ≤ more.length)
      {exts : List (UInt16 × List UInt8)} (hexts : HoldsExts (more.take total.toNat) exts)
      (hname : LastIsWhole exts 0 TellsName) (hprotocols : LastIsWhole exts 16 TellsProtocols) :
      Spared (1 :: a :: b :: c :: (fixed.bytes ++ (beBytes 2 total.toNat ++ more)))
  | cut (a b c : UInt8) (fixed : ClientFixed) (total : UInt16) {more : List UInt8} (hcut : more.length < total.toNat)
      {exts : List (UInt16 × List UInt8)} (hexts : HoldsExts more exts)
      (hname : ∀ d v, (0, d) ∈ exts → ¬TellsName d v) (hprotocols : ∀ d v, (16, d) ∈ exts → ¬TellsProtocols d v) :
      Spared (1 :: a :: b :: c :: (fixed.bytes ++ (beBytes 2 total.toNat ++ more)))

/-- The field of a hello that may lie before a malformed place. -/
def helloField (hs : Handshake) (name : FieldName) : Option Value :=
  if name = "cipher_suites" then hs.cipherSuites.map Value.list
  else if name = "selected_cipher_suite" then hs.selectedCipherSuite.map fun v => .u64 v.toUInt64
  else if name = "sni" then sniValue hs
  else alpnValue hs

theorem LiesBefore.get {fragment : List UInt8} {name : FieldName} {v : Value} (h : LiesBefore fragment name v)
    (hctx : atDepth ctx .full = true) (version : UInt16) (hs : Handshake) :
    (tlsFields ctx 22 version (some hs)).get name = helloField hs name := by
  cases h with
  | cipherSuites => exact get_cipherSuites hctx
  | selected => exact get_selectedCipherSuite hctx
  | hostName => exact get_sni (atDepth_of_full hctx _)
  | protocols => exact get_alpn hctx

/-- What the plugin keeps, told by the message that it reads. -/
def KeptBy (fragment : List UInt8) : Prop :=
  ∃ hs, parseHandshake fragment true = some hs ∧ some hs.hsType = fragment.head? ∧
    ∀ name v, LiesBefore fragment name v → helloField hs name = some v

theorem keepsFields_iff_keptBy (r : HandshakeRecord) : KeepsFields r ↔ KeptBy r.fragment := by
  obtain ⟨t, body, hfragment⟩ := List.exists_cons_of_ne_nil (List.ne_nil_of_length_pos (Nat.lt_of_lt_of_le (by decide) r.header))
  -- Full depth shows every field, so one context is enough to read the fragment's back.
  constructor
  · intro hkeeps
    obtain ⟨layer, hlayer, htype, hfields⟩ := hkeeps ⟨[], .full, ⟨0, 0, 0, 0⟩⟩ []
    have hfull : atDepth ⟨[], .full, ⟨0, 0, 0, 0⟩⟩ .full = true := rfl
    have hstructural := atDepth_of_full hfull .structural
    rw [parse_record, hstructural] at hlayer
    obtain rfl := Except.ok.inj hlayer
    have htype := htype hstructural
    rw [get_handshakeType hstructural, hfragment, List.head?_cons, Option.map_some] at htype
    obtain ⟨hs, hhs, hvalue⟩ := Option.map_eq_some_iff.1 htype
    rw [← hfragment] at hhs
    refine ⟨hs, hhs, ?_, ?_⟩
    · rw [hfragment, List.head?_cons, UInt8.toUInt64_inj.1 (Value.u64.inj hvalue)]
    · intro name v hlies
      rw [← hlies.get hfull r.version hs, ← hhs]
      exact hfields hfull name v hlies
  · rintro ⟨hs, hhs, htype, hfields⟩ ctx more
    refine ⟨_, parse_record r.toTlsRecord more, ?_, ?_⟩
    · intro hctx
      rw [get_handshakeType hctx, hctx, hhs, ← htype]
      rfl
    · intro hctx name v hlies
      dsimp only
      rw [atDepth_of_full hctx .structural, hhs, hlies.get hctx]
      exact hfields name v hlies

section Client

variable {a b c : UInt8} {fixed : ClientFixed} {mid : List UInt8} {hs : Handshake}

theorem client_mid_unique {fixed' : ClientFixed} {mid' : List UInt8} (h : fixed.bytes ++ mid = fixed'.bytes ++ mid') :
    fixed.suiteBytes = fixed'.suiteBytes ∧ mid = mid' := by
  have hread := clientFixed_read fixed mid
  rw [h, clientFixed_read] at hread
  obtain ⟨hsuites, hmid⟩ := Prod.mk.inj (Except.ok.inj hread)
  exact ⟨hsuites.symm, hmid.symm⟩

theorem total_unique {total total' : UInt16} {more more' : List UInt8}
    (h : beBytes 2 total.toNat ++ more = beBytes 2 total'.toNat ++ more') : total = total' ∧ more = more' := by
  have hread := reads_u16Be_toNat total more
  rw [h, reads_u16Be_toNat] at hread
  obtain ⟨htotal, hmore⟩ := Prod.mk.inj (Except.ok.inj hread)
  exact ⟨htotal.symm, hmore.symm⟩

/-- The cipher suites that lie in front are those that are read. -/
theorem suites_unique {head : HelloHead} {suites more : List UInt8} (hfits : suites.length < 65536)
    (h : fixed.bytes ++ mid = head.bytes ++ (beBytes 2 suites.length ++ (suites ++ more))) :
    fixed.suiteBytes = suites := by
  have hread := clientFixed_read fixed mid
  rw [h, clientFixed, bind_of_ok (helloHead_read _ _), bind_of_ok (reads_u16Be _ _),
    UInt16.toNat_ofNat_of_lt' hfits, bind_of_ok (reads_take _ _)] at hread
  obtain ⟨compLen, buf₁, -, hread⟩ := bind_eq_ok.1 hread
  obtain ⟨comp, buf₂, -, hpure⟩ := bind_eq_ok.1 hread
  exact (pure_eq_ok.1 hpure).1

/-- A ClientHello read up to its extensions keeps its fields, if it keeps what the extensions tell. -/
theorem keeps_client_iff (hsuites : hs.cipherSuites = some (cipherSuites fixed.suiteBytes)) :
    (∀ name v, LiesBefore (1 :: a :: b :: c :: (fixed.bytes ++ mid)) name v → helloField hs name = some v) ↔
      ∀ (total : UInt16) (more : List UInt8) (exts : List (UInt16 × List UInt8)),
        mid = beBytes 2 total.toNat ++ more → HoldsExts (more.take total.toNat) exts →
          (∀ v, LastTold exts 0 TellsName v → sniValue hs = some v) ∧
            ∀ v, LastTold exts 16 TellsProtocols v → alpnValue hs = some v := by
  constructor
  · rintro hkept total more exts rfl hexts
    exact ⟨fun v hlast => hkept _ _ (.hostName a b c fixed total more hexts hlast),
      fun v hlast => hkept _ _ (.protocols a b c fixed total more hexts hlast)⟩
  · intro htold name v hlies
    generalize hfragment : 1 :: a :: b :: c :: (fixed.bytes ++ mid) = fragment at hlies
    cases hlies with
    | cipherSuites a' b' c' head suites more hfits =>
        simp only [List.cons.injEq, true_and] at hfragment
        rw [helloField, if_pos rfl, hsuites, suites_unique hfits hfragment.2.2.2, cipherSuites_suiteList]
        rfl
    | selected => simp at hfragment
    | hostName a' b' c' fixed' total more hexts hlast =>
        simp only [List.cons.injEq, true_and] at hfragment
        exact (htold total more _ (client_mid_unique hfragment.2.2.2).2 hexts).1 v hlast
    | protocols a' b' c' fixed' total more hexts hlast =>
        simp only [List.cons.injEq, true_and] at hfragment
        exact (htold total more _ (client_mid_unique hfragment.2.2.2).2 hexts).2 v hlast

/-- Where no extension tells anything, there is no last that does. -/
theorem not_told_iff {exts : List (UInt16 × List UInt8)} {extType : UInt16} {tells : List UInt8 → Value → Prop} :
    (∀ v, ¬LastTold exts extType tells v) ↔ ∀ d v, (extType, d) ∈ exts → ¬tells d v := by
  constructor
  · intro hnone d v hmem htells
    obtain ⟨pre, ⟨type, data⟩, post, hexts, ⟨rfl, w, hw⟩, hpost⟩ :=
      exists_last (P := fun e : UInt16 × List UInt8 => e.1 = extType ∧ ∃ w, tells e.2 w) ⟨(extType, d), hmem, rfl, v, htells⟩
    exact hnone w ⟨pre, data, post, hexts, hw, fun d hd u hu => hpost _ hd ⟨rfl, u, hu⟩⟩
  · rintro hnone v ⟨pre, data, post, rfl, htells, -⟩
    exact hnone data v (List.mem_append_right _ List.mem_cons_self) htells

/-- What is spared of a ClientHello that goes as far as the length of its block of extensions. -/
theorem Spared.client {total : UInt16} {more : List UInt8}
    (h : Spared (1 :: a :: b :: c :: (fixed.bytes ++ (beBytes 2 total.toNat ++ more)))) :
    (total.toNat ≤ more.length → LastIsWhole (walkExtensions (more.take total.toNat)) 0 TellsName ∧
      LastIsWhole (walkExtensions (more.take total.toNat)) 16 TellsProtocols) ∧
    (more.length < total.toNat → (∀ d v, (0, d) ∈ walkExtensions more → ¬TellsName d v) ∧
      ∀ d v, (16, d) ∈ walkExtensions more → ¬TellsProtocols d v) := by
  generalize hfragment : 1 :: a :: b :: c :: (fixed.bytes ++ (beBytes 2 total.toNat ++ more)) = fragment at h
  cases h with
  | other ht body => exact absurd (List.cons.inj hfragment).1.symm ht.1
  | server => simp at hfragment
  | bare a' b' c' fixed' hmore =>
      simp only [List.cons.injEq, true_and] at hfragment
      rw [← (client_mid_unique hfragment.2.2.2).2, List.length_append, length_beBytes] at hmore
      omega
  | whole a' b' c' fixed' total' hwhole hexts hname hprotocols =>
      simp only [List.cons.injEq, true_and] at hfragment
      obtain ⟨rfl, rfl⟩ := total_unique (client_mid_unique hfragment.2.2.2).2
      rw [hexts.walk]
      exact ⟨fun _ => ⟨hname, hprotocols⟩, fun hcut => absurd hwhole (Nat.not_le.2 hcut)⟩
  | cut a' b' c' fixed' total' hcut hexts hname hprotocols =>
      simp only [List.cons.injEq, true_and] at hfragment
      obtain ⟨rfl, rfl⟩ := total_unique (client_mid_unique hfragment.2.2.2).2
      rw [hexts.walk]
      exact ⟨fun hwhole => absurd hwhole (Nat.not_le.2 hcut), fun _ => ⟨hname, hprotocols⟩⟩

theorem u16Be_short (h : buf.length < 2) : u16Be buf = .error (.truncated 2 buf.length) := by
  have htake : take 2 buf = .error (.truncated 2 buf.length) := if_neg (Nat.not_le.2 h)
  exact bind_of_error htake

/-- What a message with these extensions is read as, and when its fields are kept. -/
theorem keptBy_client_of_exts {mid rest : List UInt8} {exts : List (UInt16 × List UInt8)}
    (hexts : helloExtensions mid = .ok (exts, rest)) :
    KeptBy (1 :: a :: b :: c :: (fixed.bytes ++ mid)) ↔
      ∀ (total : UInt16) (more : List UInt8) (held : List (UInt16 × List UInt8)),
        mid = beBytes 2 total.toNat ++ more → HoldsExts (more.take total.toNat) held →
          (∀ v, LastTold held 0 TellsName v →
            overwritten 0 (fun data _ => (parseSni data).map fun s => Value.str (String.ofList s)) exts none = some v) ∧
            ∀ v, LastTold held 16 TellsProtocols v →
              overwritten 16 (fun data _ => (parseAlpn data).map Value.list) exts none = some v := by
  have hread := parseHandshake_client (a := a) (b := b) (c := c) (clientFixed_read fixed mid) hexts
  have htype := foldl_recordExtension_kept hsType_recordExtension
    { hsType := 1, cipherSuites := some (cipherSuites fixed.suiteBytes) } exts
  have hsuites := foldl_recordExtension_kept cipherSuites_recordExtension
    { hsType := 1, cipherSuites := some (cipherSuites fixed.suiteBytes) } exts
  rw [← sniValue_foldl exts (cipherSuites fixed.suiteBytes), ← alpnValue_foldl exts (cipherSuites fixed.suiteBytes),
    ← keeps_client_iff hsuites]
  constructor
  · rintro ⟨hs, hhs, -, hfields⟩
    obtain rfl := Option.some.inj (hread.symm.trans hhs)
    exact hfields
  · intro hfields
    exact ⟨_, hread, congrArg some htype, hfields⟩

/-- Two octets or more begin with the length of a block. -/
theorem exists_total {mid : List UInt8} (hlong : 2 ≤ mid.length) :
    ∃ (total : UInt16) (more : List UInt8), mid = beBytes 2 total.toNat ++ more := by
  match mid, hlong with
  | m₁ :: m₂ :: more, _ => exact ⟨_, more, u16Be_split (u16Be_cons m₁ m₂ more)⟩

theorem keptBy_client (mid : List UInt8) :
    KeptBy (1 :: a :: b :: c :: (fixed.bytes ++ mid)) ↔ Spared (1 :: a :: b :: c :: (fixed.bytes ++ mid)) := by
  by_cases hshort : mid.length < 2
  · -- the message ends in front of the length of the block
    have herror : (u16Be >>= fun n => take n.toNat) mid = .error (.truncated 2 mid.length) :=
      bind_of_error (u16Be_short hshort)
    refine (keptBy_client_of_exts (helloExtensions_error herror)).trans ⟨fun _ => .bare a b c fixed hshort, fun _ => ?_⟩
    rintro total more held rfl
    rw [List.length_append, length_beBytes] at hshort
    omega
  · obtain ⟨total, more, rfl⟩ := exists_total (Nat.not_lt.1 hshort)
    by_cases hwhole : total.toNat ≤ more.length
    · have hblock : (more.take total.toNat).length = total.toNat := List.length_take_of_le hwhole
      have hread : helloExtensions (beBytes 2 (more.take total.toNat).length ++ (more.take total.toNat ++
          more.drop total.toNat)) = .ok (walkExtensions (more.take total.toNat), more.drop total.toNat) :=
        helloExtensions_block (by rw [hblock]; exact total.toNat_lt) _
      rw [hblock, List.take_append_drop] at hread
      refine (keptBy_client_of_exts hread).trans ⟨fun htold => ?_, fun hspared => ?_⟩
      · have hheld := holdsExts_walkExtensions (more.take total.toNat)
        obtain ⟨hname, hprotocols⟩ := htold total more _ rfl hheld
        exact .whole a b c fixed total hwhole hheld
          ((overwritten_lastTold_iff fun _ _ => parseSni_eq_some).1 hname)
          ((overwritten_lastTold_iff fun _ _ => parseAlpn_eq_some).1 hprotocols)
      · intro total' more' held heq hheld
        obtain ⟨rfl, rfl⟩ := total_unique heq
        obtain ⟨hname, hprotocols⟩ := hspared.client.1 hwhole
        rw [← hheld.walk]
        exact ⟨(overwritten_lastTold_iff fun _ _ => parseSni_eq_some).2 hname,
          (overwritten_lastTold_iff fun _ _ => parseAlpn_eq_some).2 hprotocols⟩
    · -- the block is cut, and all of it is given up
      have hcut : more.length < total.toNat := Nat.not_le.1 hwhole
      have herror : (u16Be >>= fun n => take n.toNat) (beBytes 2 total.toNat ++ more) =
          .error (.truncated total.toNat more.length) := by
        rw [bind_of_ok (reads_u16Be_toNat _ _)]
        exact if_neg hwhole
      have harea : more.take total.toNat = more := List.take_of_length_le hcut.le
      refine (keptBy_client_of_exts (helloExtensions_error herror)).trans ⟨fun htold => ?_, fun hspared => ?_⟩
      · have hheld := holdsExts_walkExtensions more
        obtain ⟨hname, hprotocols⟩ := htold total more _ rfl (by rwa [harea])
        exact .cut a b c fixed total hcut hheld
          (not_told_iff.1 fun v hv => nomatch hname v hv) (not_told_iff.1 fun v hv => nomatch hprotocols v hv)
      · intro total' more' held heq hheld
        obtain ⟨rfl, rfl⟩ := total_unique heq
        obtain ⟨hname, hprotocols⟩ := hspared.client.2 hcut
        rw [harea] at hheld
        rw [hheld.walk] at hname hprotocols
        exact ⟨fun v hv => absurd hv (not_told_iff.2 hname v), fun v hv => absurd hv (not_told_iff.2 hprotocols v)⟩

end Client

theorem keptBy_server (a b c : UInt8) (body : List UInt8) :
    KeptBy (2 :: a :: b :: c :: body) ↔ Spared (2 :: a :: b :: c :: body) := by
  cases hfixed : serverFixed body with
  | error e =>
      constructor
      · rintro ⟨hs, hhs, -⟩
        rw [parseHandshake_server_error hfixed] at hhs
        cases hhs
      · intro hspared
        cases hspared with
        | other ht => exact absurd rfl ht.2
        | server =>
            rw [serverFixed_read] at hfixed
            cases hfixed
  | ok r =>
      obtain ⟨⟨suite, version⟩, mid⟩ := r
      constructor
      · intro _
        obtain ⟨head, compression, rfl⟩ := serverFixed_eq_ok hfixed
        exact .server a b c head suite compression mid
      · intro _
        obtain ⟨exts, rest, hexts⟩ := exists_helloExtensions mid
        refine ⟨_, parseHandshake_server hfixed hexts, ?_, ?_⟩
        · exact congrArg some (foldl_recordExtension_kept hsType_recordExtension _ exts)
        · intro name v hlies
          cases hlies with
          | selected _ _ _ head suite' more =>
              -- the suite that lies in front is the one that is read
              rw [serverFixed, bind_of_ok (helloHead_read _ _), bind_of_ok (reads_u16Be_toNat _ _)] at hfixed
              obtain ⟨compression, buf₁, -, hpure⟩ := bind_eq_ok.1 hfixed
              obtain ⟨heq, -⟩ := pure_eq_ok.1 hpure
              obtain ⟨rfl, -⟩ := Prod.mk.inj heq
              rw [helloField, if_neg (by decide), if_pos rfl,
                foldl_recordExtension_kept selectedCipherSuite_recordExtension]
              rfl

/-- Fields are kept if and only if the fragment is spared. -/
theorem keptBy_iff {fragment : List UInt8} (h : 4 ≤ fragment.length) : KeptBy fragment ↔ Spared fragment := by
  obtain ⟨t, a, b, c, body, rfl⟩ : ∃ t a b c body, fragment = t :: a :: b :: c :: body := by
    match fragment, h with
    | t :: a :: b :: c :: body, _ => exact ⟨t, a, b, c, body, rfl⟩
  -- By handshake type: only the two hellos have a body that is read.
  by_cases hclient : t = 1
  · subst hclient
    cases hfixed : clientFixed body with
    | error e =>
        constructor
        · rintro ⟨hs, hhs, -⟩
          rw [parseHandshake_client_error hfixed] at hhs
          cases hhs
        · intro hspared
          cases hspared with
          | other ht => exact absurd rfl ht.1
          | bare | whole | cut =>
              rw [clientFixed_read] at hfixed
              cases hfixed
    | ok r =>
        obtain ⟨cs, mid⟩ := r
        obtain ⟨fixed, rfl, -⟩ := clientFixed_eq_ok hfixed
        exact keptBy_client mid
  · by_cases hserver : t = 2
    · subst hserver
      exact keptBy_server a b c body
    · constructor
      · intro _
        exact .other ⟨hclient, hserver⟩ _
      · intro _
        refine ⟨_, parseHandshake_other ⟨hclient, hserver⟩ body, rfl, ?_⟩
        intro name v hlies
        cases hlies with
        | cipherSuites | hostName | protocols => exact absurd rfl hclient
        | selected => exact absurd rfl hserver

/-- A record loses nothing in front of a malformed place if and only if its fragment is spared. -/
theorem keepsFields_iff (r : HandshakeRecord) : KeepsFields r ↔ Spared r.fragment :=
  (keepsFields_iff_keptBy r).trans (keptBy_iff r.header)

/-- The record of a ClientHello whose first bytes are all that it holds: the type is there, and is lost. -/
theorem not_keepsFields_split : ¬∀ r : HandshakeRecord, KeepsFields r := by
  intro h
  obtain ⟨layer, hlayer, htype, -⟩ := h ⟨⟨0x0301, [1, 0, 0, 60, 3, 3], by decide, by decide⟩, by decide⟩
    ⟨[], .full, ⟨0, 0, 0, 0⟩⟩ []
  obtain rfl := Except.ok.inj hlayer
  cases htype rfl

end Records

end Pktflow.Plugins
