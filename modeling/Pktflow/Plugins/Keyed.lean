import Pktflow.Core.Provenance
import Pktflow.Core.Selection
import Pktflow.Flows.Intake
import Pktflow.Plugins.BacnetIp
import Pktflow.Plugins.Ber
import Pktflow.Plugins.Bgp
import Pktflow.Plugins.Dhcpv6
import Pktflow.Plugins.Dns
import Pktflow.Plugins.Encapsulation
import Pktflow.Plugins.Ethernet
import Pktflow.Plugins.FiveTuple
import Pktflow.Plugins.GtpC
import Pktflow.Plugins.GtpU
import Pktflow.Plugins.Http
import Pktflow.Plugins.Ipfix
import Pktflow.Plugins.Mqtt
import Pktflow.Plugins.Stun
import Pktflow.Plugins.Tagging
import Pktflow.Plugins.Tls

/-!
# Keys that are there

The contract between a plugin and the store: in a session that aggregates, a layer that the plugin parses has every
field that its stream key names (`SuppliesKey`). These plugins keep it, each whatever its bytes are.
-/

set_option autoImplicit false

namespace Pktflow.Plugins

open Pktflow.Core Pktflow.Core.ByteReader Pktflow.Flows Pktflow.Lib

/-! ## The contract -/

/-- The field is there. -/
def Has (name : FieldName) (fields : FieldMap) : Prop := (fields.get name).isSome

/-- The fields that a key names. -/
def keyNames (key : List KeyField) : List FieldName := key.flatMap fun kf => kf.a :: kf.b.toList

/-- In a session that keeps the keys, every layer of the plugin has its stream key. -/
def SuppliesKey (p : LayerPlugin) : Prop :=
  ∀ identity, p.streamIdentity = some identity → ∀ bytes ctx l, atDepth ctx .keys = true →
    p.parse bytes ctx = .ok l → ∃ key, flowKey identity l.fields = .ok key

theorem gatherSides_ok {fields : FieldMap} {key : List KeyField} (h : ∀ name ∈ keyNames key, Has name fields)
    (acc : Sides) : ∃ sides, gatherSides fields key acc = .ok sides := by
  induction key generalizing acc with
  | nil => exact ⟨acc, rfl⟩
  | cons kf key ih =>
      have hrest : ∀ name ∈ keyNames key, Has name fields := fun name hname =>
        h name (List.mem_append_right (kf.a :: kf.b.toList) hname)
      obtain ⟨va, hva⟩ := Option.isSome_iff_exists.1 (h kf.a (List.mem_append_left _ List.mem_cons_self))
      rw [gatherSides, hva]
      cases hb : kf.b with
      | none => exact ih hrest _
      | some b =>
          have hmem : b ∈ kf.a :: kf.b.toList := by
            rw [hb]
            exact List.mem_cons_of_mem _ (List.mem_singleton_self b)
          obtain ⟨vb, hvb⟩ := Option.isSome_iff_exists.1 (h b (List.mem_append_left _ hmem))
          dsimp only
          rw [hvb]
          exact ih hrest _

theorem has_of_gatherSides {fields : FieldMap} {key : List KeyField} {acc sides : Sides}
    (h : gatherSides fields key acc = .ok sides) : ∀ name ∈ keyNames key, Has name fields := by
  induction key generalizing acc with
  | nil => exact fun name hname => nomatch hname
  | cons kf key ih =>
      rw [gatherSides] at h
      intro name hname
      rw [keyNames, List.flatMap_cons, List.cons_append, List.mem_cons] at hname
      cases ha : fields.get kf.a with
      | none =>
          rw [ha] at h
          cases h
      | some va =>
          rw [ha] at h
          dsimp only at h
          have hasA : Has kf.a fields := by rw [Has, ha]; rfl
          cases hb : kf.b with
          | none =>
              rw [hb] at h hname
              rcases hname with rfl | hrest
              · exact hasA
              · exact ih h name hrest
          | some b =>
              rw [hb] at h hname
              dsimp only at h
              cases hvb : fields.get b with
              | none =>
                  rw [hvb] at h
                  cases h
              | some vb =>
                  rw [hvb] at h
                  rcases hname with rfl | hrest
                  · exact hasA
                  · rcases List.mem_cons.1 hrest with rfl | hrest
                    · rw [Has, hvb]
                      rfl
                    · exact ih h name hrest

/-- A key of endpoints is there exactly if its fields are. -/
theorem flowKey_ok_iff {identity : StreamIdentity} (hsort : identity.canonicalize = .endpointSort) {fields : FieldMap} :
    (∃ key, flowKey identity fields = .ok key) ↔ ∀ name ∈ keyNames identity.key, Has name fields := by
  rw [flowKey, hsort]
  dsimp only
  constructor
  · rintro ⟨key, hkey⟩
    cases hsides : gatherSides fields identity.key {} with
    | error e =>
        rw [hsides] at hkey
        cases hkey
    | ok sides => exact has_of_gatherSides hsides
  · intro h
    obtain ⟨sides, hsides⟩ := gatherSides_ok h {}
    exact ⟨(sides.key, sides.direction), by rw [hsides]⟩

/-- A plugin without an identity has no key to supply. -/
theorem suppliesKey_of_none {p : LayerPlugin} (h : p.streamIdentity = none) : SuppliesKey p := by
  intro identity hidentity
  rw [h] at hidentity
  cases hidentity

theorem suppliesKey_of_parse {p : LayerPlugin} {identity : StreamIdentity}
    (hidentity : p.streamIdentity = some identity) (hsort : identity.canonicalize = .endpointSort)
    (h : ∀ bytes ctx l, atDepth ctx .keys = true → p.parse bytes ctx = .ok l →
      ∀ name ∈ keyNames identity.key, Has name l.fields) : SuppliesKey p := by
  intro identity' hidentity' bytes ctx l hctx hparse
  obtain rfl := Option.some.inj (hidentity.symm.trans hidentity')
  exact (flowKey_ok_iff hsort).2 (h bytes ctx l hctx hparse)

/-- The same for a plugin that is a reader. -/
theorem suppliesKey_of_reader {p : LayerPlugin} {identity : StreamIdentity}
    (hidentity : p.streamIdentity = some identity) (hsort : identity.canonicalize = .endpointSort)
    {reader : List UInt8 → ParseCtx → ByteReader ParsedLayer} (hreader : ∀ bytes ctx, p.parse bytes ctx =
      (reader bytes ctx).parse bytes)
    (h : ∀ bytes ctx, atDepth ctx .keys = true →
      Ensures (reader bytes ctx) fun l => ∀ name ∈ keyNames identity.key, Has name l.fields) : SuppliesKey p := by
  apply suppliesKey_of_parse hidentity hsort
  intro bytes ctx l hctx hparse
  rw [hreader] at hparse
  exact (h bytes ctx hctx).parse hparse

/-! ## Fields stay -/

section Fields

variable {ctx : ParseCtx} {name : FieldName} {fields : FieldMap}

theorem Has.insert (h : Has name fields) (other : FieldName) (v : Value) : Has name (fields.insert other v) := by
  rw [Has, FieldMap.get_insert]
  split
  · rfl
  · exact h

theorem has_insert (fields : FieldMap) (name : FieldName) (v : Value) : Has name (fields.insert name v) := by
  rw [Has, FieldMap.get_insert, if_pos rfl]
  rfl

theorem Has.foldl (h : Has name fields) (level : List (FieldName × Value)) :
    Has name (level.foldl (fun m e => m.insert e.1 e.2) fields) := by
  induction level generalizing fields with
  | nil => exact h
  | cons e level ih => exact ih (h.insert e.1 e.2)

/-- Another level takes no field away. -/
theorem Has.level (h : Has name fields) (depth : Depth) (level : List (FieldName × Value)) :
    Has name (insertAt ctx depth level fields) := by
  rw [insertAt]
  split
  · exact h.foldl level
  · exact h

/-- The level of the keys has its fields. -/
theorem has_keys (hctx : atDepth ctx .keys = true) {level : List (FieldName × Value)}
    (hname : name ∈ level.map Prod.fst) : Has name (insertAt ctx .keys level fields) := by
  rw [insertAt, if_pos hctx]
  induction level generalizing fields with
  | nil => cases hname
  | cons e level ih =>
      rw [List.map_cons] at hname
      rcases List.mem_cons.1 hname with rfl | hname
      · exact (has_insert fields e.1 e.2).foldl level
      · exact ih hname

/-- The levels above the one of the keys do not matter. -/
theorem has_keys_below (hctx : atDepth ctx .keys = true) {level structural full : List (FieldName × Value)}
    (hname : name ∈ level.map Prod.fst) :
    Has name (insertAt ctx .full full (insertAt ctx .structural structural (insertAt ctx .keys level fields))) :=
  ((has_keys hctx hname).level .structural structural).level .full full

end Fields

/-- A reader that goes round keeps what each turn keeps. -/
theorem ensures_loop {σ β : Type} {turn : σ → ByteReader (σ ⊕ β)} {I : σ → Prop} {P : β → Prop}
    (hturn : ∀ s, I s → Ensures (turn s) (Sum.elim I P)) {s : σ} (hs : I s) : Ensures (loop turn s) P := by
  have hfuel : ∀ n s, I s → Ensures (loopFuel turn n s) P := by
    intro n
    induction n with
    | zero => exact fun s _ => ensures_throw _ _
    | succ n ih =>
        intro s hs
        rw [loopFuel]
        refine (hturn s hs).bind fun r hr => ?_
        cases r with
        | inl s' => exact ih s' hr
        | inr b => exact ensures_pure hr
  intro buf rest b hb
  exact hfuel _ s hs buf rest b hb

/-- What a reader of a part of the bytes ensures. -/
theorem ensures_lift {α : Type} {x : ByteReader α} {P : α → Prop} {bytes : List UInt8} (h : Ensures x P) :
    Ensures (liftM (x.parse bytes) : ByteReader α) P := by
  intro buf rest a ha
  cases hx : x.parse bytes with
  | error e =>
      rw [hx] at ha
      cases ha
  | ok b =>
      rw [hx] at ha
      cases ha
      exact h.parse hx

/-! ## The plugins -/

section Members

variable {ctx : ParseCtx}

theorem ethernet_supplies : SuppliesKey ethernet := by
  refine @suppliesKey_of_reader _ ethernetIdentity rfl rfl (fun _ ctx => parseEthernet ctx) (fun _ _ => rfl) ?_
  intro bytes ctx hctx
  rw [parseEthernet]
  refine .skip fun _ => .skip fun _ => .skip fun _ => ensures_pure ?_
  exact fun name hname => (has_keys hctx (by simpa [keyNames, ethernetIdentity] using hname)).level _ _

theorem ipv4_supplies : SuppliesKey ipv4 := by
  refine @suppliesKey_of_reader _ (addressIdentity "protocol") rfl rfl (fun _ ctx => parseIpv4 ctx) (fun _ _ => rfl) ?_
  intro bytes ctx hctx
  rw [parseIpv4]
  refine .skip fun _ => .guard (.guard (.skip fun _ => .skip fun _ => .skip fun _ => .skip fun _ => .skip fun _ => ?_))
  refine .skip fun _ => .skip fun _ => .skip fun _ => .skip fun _ => .skip fun _ => ensures_pure ?_
  exact fun name hname => has_keys_below hctx (by simpa [keyNames, addressIdentity] using hname)

theorem ipv6_supplies : SuppliesKey ipv6 := by
  refine @suppliesKey_of_reader _ (addressIdentity "next_header") rfl rfl (fun _ ctx => parseIpv6 ctx)
    (fun _ _ => rfl) ?_
  intro bytes ctx hctx
  rw [parseIpv6]
  refine .skip fun _ => .guard (.skip fun _ => .skip fun _ => .skip fun _ => .skip fun _ => .skip fun _ => ?_)
  refine .skip fun _ => ensures_pure ?_
  exact fun name hname => has_keys_below hctx (by simpa [keyNames, addressIdentity] using hname)

theorem tcp_supplies : SuppliesKey tcp := by
  refine @suppliesKey_of_reader _ tcpIdentity rfl rfl (fun bytes ctx => parseTcp bytes.length ctx) (fun _ _ => rfl) ?_
  intro bytes ctx hctx
  rw [parseTcp]
  refine .skip fun _ => .skip fun _ => .skip fun _ => .skip fun _ => .skip fun _ => .guard ?_
  refine .skip fun _ => .skip fun _ => .skip fun _ => .skip fun _ => ensures_pure ?_
  exact fun name hname => has_keys_below hctx (by simpa [keyNames, tcpIdentity, portPair, portFields] using hname)

theorem udp_supplies : SuppliesKey udp := by
  refine @suppliesKey_of_reader _ udpIdentity rfl rfl (fun _ ctx => parseUdp ctx) (fun _ _ => rfl) ?_
  intro bytes ctx hctx
  rw [parseUdp]
  refine .skip fun _ => .skip fun _ => .skip fun _ => .skip fun _ => ensures_pure ?_
  exact fun name hname => has_keys_below hctx (by simpa [keyNames, udpIdentity, portPair, portFields] using hname)

theorem vxlan_supplies : SuppliesKey vxlan := by
  refine @suppliesKey_of_reader _ _ rfl rfl (fun _ ctx => parseVxlan ctx) (fun _ _ => rfl) ?_
  intro bytes ctx hctx
  rw [parseVxlan]
  refine .skip fun _ => .guard (.skip fun _ => .skip fun _ => .skip fun _ => ensures_pure ?_)
  exact fun name hname => (has_keys hctx (by simpa [keyNames] using hname)).level _ _

theorem gre_supplies : SuppliesKey gre := by
  refine @suppliesKey_of_reader _ _ rfl rfl (fun _ ctx => parseGre ctx) (fun _ _ => rfl) ?_
  intro bytes ctx hctx
  rw [parseGre]
  refine .skip fun _ => .guard (.skip fun _ => .skip fun _ => .skip fun _ => .skip fun _ => ensures_pure ?_)
  exact fun name hname => has_keys_below hctx (by simpa [keyNames] using hname)

theorem mpls_supplies : SuppliesKey mpls := by
  refine @suppliesKey_of_reader _ _ rfl rfl (fun _ ctx => parseMpls ctx) (fun _ _ => rfl) ?_
  intro bytes ctx hctx
  rw [parseMpls]
  refine .skip ?_
  rintro ⟨_, _⟩
  refine ensures_pure ?_
  exact fun name hname => has_keys_below hctx (by simpa [keyNames] using hname)

theorem gtpU_supplies : SuppliesKey gtpU := by
  refine @suppliesKey_of_reader _ _ rfl rfl (fun _ ctx => parseGtpU ctx) (fun _ _ => rfl) ?_
  intro bytes ctx hctx
  rw [parseGtpU]
  refine .skip fun _ => .guard (.guard (.skip fun _ => .skip fun _ => .skip fun _ => .skip ?_))
  rintro ⟨_, _⟩
  refine ensures_pure ?_
  exact fun name hname => has_keys_below hctx (by simpa [keyNames] using hname)

theorem gtpC_supplies : SuppliesKey gtpC := by
  refine @suppliesKey_of_reader _ _ rfl rfl (fun _ ctx => parseGtpC ctx) (fun _ _ => rfl) ?_
  intro bytes ctx hctx
  rw [parseGtpC]
  refine .skip fun _ => .skip ?_
  rintro ⟨_, _, _, _⟩
  refine .guard (.skip fun _ => .skip ?_)
  rintro ⟨_, _⟩
  refine ensures_pure ?_
  exact fun name hname => has_keys_below hctx (by simpa [keyNames] using hname)

theorem bgp_supplies : SuppliesKey bgp := by
  refine @suppliesKey_of_reader _ _ rfl rfl (fun _ ctx => parseBgp ctx) (fun _ _ => rfl) ?_
  intro bytes ctx hctx
  rw [parseBgp]
  refine .skip fun _ => .skip fun _ => .skip fun _ => .guard (.skip fun _ => .skip fun _ => ensures_pure ?_)
  exact fun name hname => has_keys_below hctx (by simpa [keyNames] using hname)

theorem ipfix_supplies : SuppliesKey ipfix := by
  refine @suppliesKey_of_reader _ _ rfl rfl (fun _ ctx => parseIpfix ctx) (fun _ _ => rfl) ?_
  intro bytes ctx hctx
  rw [parseIpfix]
  refine .skip fun _ => .guard (.skip fun _ => .skip fun _ => .skip fun _ => .skip fun _ => .guard ?_)
  refine .skip fun _ => .skip fun _ => ensures_pure ?_
  exact fun name hname => has_keys_below hctx (by simpa [keyNames] using hname)

theorem mqtt_supplies : SuppliesKey mqtt := by
  refine @suppliesKey_of_reader _ _ rfl rfl (fun _ ctx => parseMqtt ctx) (fun _ _ => rfl) ?_
  intro bytes ctx hctx
  rw [parseMqtt]
  refine .skip ?_
  rintro ⟨⟨_, _, _, _⟩, _⟩
  refine ensures_pure ?_
  exact fun name hname => has_keys_below hctx (by simpa [keyNames] using hname)

theorem bacnetIp_supplies : SuppliesKey bacnetIp := by
  refine @suppliesKey_of_reader _ _ rfl rfl (fun _ ctx => parseBacnetIp ctx) (fun _ _ => rfl) ?_
  intro bytes ctx hctx
  rw [parseBacnetIp]
  refine .skip ?_
  rintro ⟨_, _⟩
  refine ensures_pure ?_
  exact fun name hname => has_keys_below hctx (by simpa [keyNames] using hname)

theorem dhcpv6_supplies : SuppliesKey dhcpv6 := by
  refine @suppliesKey_of_reader _ _ rfl rfl (fun bytes ctx => parseDhcpv6 bytes.length ctx) (fun _ _ => rfl) ?_
  intro bytes ctx hctx
  rw [parseDhcpv6]
  refine .skip fun _ => .guard (.skip fun _ => .skip fun _ => ensures_pure ?_)
  exact fun name hname => has_keys_below hctx (by simpa [keyNames] using hname)

theorem snmp_supplies : SuppliesKey snmp := by
  refine @suppliesKey_of_reader _ _ rfl rfl (fun _ ctx => Snmp.parse ctx) (fun _ _ => rfl) ?_
  intro bytes ctx hctx
  rw [Snmp.parse]
  refine .skip ?_
  rintro ⟨⟨_, _⟩, _⟩
  refine .guard (.skip fun _ => ensures_pure ?_)
  exact fun name hname => has_keys_below hctx (by simpa [keyNames] using hname)

theorem ldap_supplies : SuppliesKey ldap := by
  refine @suppliesKey_of_reader _ _ rfl rfl (fun _ ctx => Ldap.parse ctx) (fun _ _ => rfl) ?_
  intro bytes ctx hctx
  rw [Ldap.parse]
  refine .skip ?_
  rintro ⟨⟨_, _⟩, _⟩
  refine .guard (.skip ?_)
  rintro ⟨_, _, _⟩
  refine ensures_pure ?_
  exact fun name hname => has_keys_below hctx (by simpa [keyNames] using hname)

theorem kerberos_supplies : SuppliesKey kerberos := by
  refine @suppliesKey_of_reader _ _ rfl rfl (fun _ ctx => Kerberos.parse ctx) (fun _ _ => rfl) ?_
  intro bytes ctx hctx
  rw [Kerberos.parse]
  refine .skip ?_
  rintro ⟨⟨_, _⟩, _⟩
  refine ensures_pure ?_
  exact fun name hname => (has_keys hctx (by simpa [keyNames] using hname)).level _ _

theorem tls_supplies : SuppliesKey tls := by
  refine @suppliesKey_of_reader _ _ rfl rfl (fun _ ctx => parseTls ctx) (fun _ _ => rfl) ?_
  intro bytes ctx hctx
  rw [parseTls]
  refine .skip fun _ => .guard (.skip fun _ => .guard (.skip fun _ => .skip fun _ => ensures_pure ?_))
  exact fun name hname => has_keys_below hctx (by simpa [keyNames] using hname)

theorem recordAttribute_has {transactionId : List UInt8} {fields : FieldMap} (h : Has "app" fields)
    (attr : UInt16 × List UInt8) : Has "app" (recordAttribute transactionId fields attr) := by
  rw [recordAttribute]
  split
  · exact h.insert _ _
  · exact h

theorem ensures_attributes {transactionId : List UInt8} {base : FieldMap} (h : Has "app" base) :
    Ensures (whileGood 4 stunAttribute (recordAttribute transactionId) base) (Has "app") := by
  refine ensures_loop (I := Has "app") (fun fields hfields => ?_) h
  rw [entryTurn]
  refine .skip fun left => ?_
  split
  · exact ensures_pure hfields
  · refine .skip fun entry => ?_
    cases entry with
    | some attr => exact ensures_pure (recordAttribute_has hfields attr)
    | none => exact ensures_pure hfields

/-- The attributes of a STUN message are inserted one by one, behind the key. -/
theorem stun_supplies : SuppliesKey stun := by
  refine @suppliesKey_of_reader _ _ rfl rfl (fun _ ctx => parseStun ctx) (fun _ _ => rfl) ?_
  intro bytes ctx hctx
  rw [parseStun]
  refine .skip fun msgType => .guard (.skip fun messageLength => .guard (.skip fun _ => .guard ?_))
  refine .skip fun transactionId => .skip fun attrs => ?_
  have hbase : Has "app" (insertAt ctx .structural
      [("message_class", .str (messageClassName (decodeMessageType msgType).1)),
        ("message_method", .u64 (decodeMessageType msgType).2.toUInt64),
        ("message_length", .u64 messageLength.toUInt64)]
      (insertAt ctx .keys [("app", .str "stun")] FieldMap.new)) :=
    (has_keys hctx (by simp)).level _ _
  have hfields : ∀ fields, Has "app" fields →
      Ensures (pure ⟨20 + messageLength.toNat, fields, .terminal⟩ : ByteReader ParsedLayer)
        fun l => ∀ name ∈ keyNames [⟨"app", none⟩], Has name l.fields := by
    intro fields h
    apply ensures_pure
    simpa [keyNames] using h
  dsimp only
  split
  · exact .bind (ensures_lift (ensures_attributes hbase)) hfields
  · exact .bind (ensures_pure hbase) hfields

theorem http_supplies : SuppliesKey http := by
  apply suppliesKey_of_parse rfl rfl
  intro bytes ctx l hctx hparse
  change parseHttp bytes ctx = .ok l at hparse
  rw [parseHttp] at hparse
  -- Of the two layers, the first is for the preface of another protocol.
  split at hparse
  · obtain rfl := Except.ok.inj hparse
    exact fun name hname => (has_keys hctx (by simpa [keyNames] using hname)).level _ _
  · split at hparse
    · cases hparse
    · rename_i blankPos _
      dsimp only at hparse
      split at hparse
      · cases hparse
      · rename_i first _ _
        cases hstart : parseStartLine first with
        | error e =>
            rw [hstart] at hparse
            cases hparse
        | ok start =>
            rw [hstart] at hparse
            obtain rfl := Except.ok.inj hparse
            exact fun name hname => has_keys_below hctx (by simpa [keyNames] using hname)

theorem dns_supplies : SuppliesKey dns := by
  apply suppliesKey_of_parse rfl rfl
  intro bytes ctx l hctx hparse
  have hparsed : ∀ e, parseDns ctx bytes = .error e → dns.parse bytes ctx ≠ .ok l := by
    intro e he
    dsimp only [dns]
    rw [he]
    intro hok
    cases e <;> cases hok
  cases hlayer : parseDns ctx bytes with
  | error e => exact absurd hparse (hparsed e hlayer)
  | ok layer =>
    dsimp only [dns] at hparse
    rw [hlayer] at hparse
    obtain rfl := Except.ok.inj hparse
    obtain ⟨framed, -, hmessage⟩ := except_bind_eq_ok.1 hlayer
    obtain ⟨raw, -, hraw⟩ := except_bind_eq_ok.1 hmessage
    obtain rfl := Except.ok.inj hraw
    exact fun name hname => has_keys_below hctx (by simpa [keyNames, dnsIdentity] using hname)

end Members

/-! ## Registered plugins -/

section Registered

variable {e : Engine}

/-- A registered plugin is found under its name, which is no other plugin's. -/
theorem pluginByName_of_registered {p : LayerPlugin} (h : p ∈ e.registry.plugins) :
    e.pluginByName p.name = some p := by
  obtain ⟨b, hb⟩ := e.built
  obtain ⟨byName, claims, hnames, -, -, -, -, hr⟩ := EngineBuilder.build_eq_ok.1 hb
  have hplugins : e.registry.plugins = b.plugins := by rw [hr]
  have hnodup := e.names_nodup
  rw [hplugins] at h hnodup
  obtain ⟨i, hi, hget⟩ := List.mem_iff_getElem.1 h
  have hfind : b.plugins.findIdx? (fun q => q.name = p.name) = some i := by
    rw [List.findIdx?_eq_some_iff_getElem]
    refine ⟨hi, by rw [hget]; exact decide_eq_true rfl, ?_⟩
    intro j hj hname
    have hi' : i < (b.plugins.map LayerPlugin.name).length := by rwa [List.length_map]
    have hj' : j < (b.plugins.map LayerPlugin.name).length := Nat.lt_trans hj hi'
    have hsame : (b.plugins.map LayerPlugin.name)[j] = (b.plugins.map LayerPlugin.name)[i] := by
      rw [List.getElem_map, List.getElem_map, hget]
      exact of_decide_eq_true hname
    exact absurd ((List.Nodup.getElem_inj_iff hnodup).1 hsame) (Nat.ne_of_lt hj)
  rw [Engine.pluginByName, hplugins, hr]
  dsimp only
  rw [EngineBuilder.byName_lookup hnames, hfind, Option.bind_some, List.getElem?_eq_getElem hi, hget]

end Registered

end Pktflow.Plugins
