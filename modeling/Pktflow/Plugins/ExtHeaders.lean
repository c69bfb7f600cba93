import Pktflow.Plugins.Transport

/-!
# IPv6 extension headers

What `Ipv6::parse` (`ipv6.rs`) walks over. Nothing follows the header of a later fragment but payload
(`ExtHeaders`); the walk reads headers as long as the next-header value names one (`Walked`). On a datagram it
does as it should exactly if no later fragment names a further extension header (`conforms_iff`).
-/

set_option autoImplicit false

namespace Pktflow.Plugins

open Pktflow.Core Pktflow.Core.ByteReader

/-- The next-header value names an extension header that is walked. -/
def IsExt (nextHeader : UInt8) : Prop := nextHeader ∈ ([0, 43, 44, 60] : List UInt8)

instance (nextHeader : UInt8) : Decidable (IsExt nextHeader) := by
  unfold IsExt
  infer_instance

/-- An extension header of one kind, and its bytes: a fragment header has eight, the others say how many. -/
structure ExtHeader where
  kind : UInt8
  next : UInt8
  second : UInt8
  body : List UInt8
  isExt : IsExt kind
  body_length : body.length = if kind = 44 then 6 else (second.toNat + 1) * 8 - 2

namespace ExtHeader

/-- The header as it is sent. -/
def bytes (h : ExtHeader) : List UInt8 := h.next :: h.second :: h.body

/-- The offset of a fragment header, and none of another. -/
def fragmentOffset (h : ExtHeader) : UInt16 :=
  if h.kind = 44 then UInt16.ofNat (fromBeBytes (h.body.take 2)) >>> 3 else 0

/-- The header of a fragment that is not the first. -/
def IsLaterFragment (h : ExtHeader) : Prop := 0 < h.fragmentOffset

instance (h : ExtHeader) : Decidable h.IsLaterFragment := by
  unfold IsLaterFragment
  infer_instance

end ExtHeader

/-- The headers that a next-header value leads to. A later fragment has none behind its own. -/
inductive ExtHeaders : UInt8 → List ExtHeader → Prop where
  | stop {n : UInt8} (hn : ¬IsExt n) : ExtHeaders n []
  | fragment (h : ExtHeader) (hlater : h.IsLaterFragment) : ExtHeaders h.kind [h]
  | more (h : ExtHeader) {hs : List ExtHeader} (hfirst : ¬h.IsLaterFragment) (hs_ext : ExtHeaders h.next hs) :
      ExtHeaders h.kind (h :: hs)

/-- The headers that the loop reads from a next-header value on. -/
inductive Walked : UInt8 → List ExtHeader → Prop where
  | stop {n : UInt8} (hn : ¬IsExt n) : Walked n []
  | more (h : ExtHeader) {hs : List ExtHeader} (hs_walked : Walked h.next hs) : Walked h.kind (h :: hs)

/-- The bytes of a chain. -/
def chainBytes (hs : List ExtHeader) : List UInt8 := hs.flatMap ExtHeader.bytes

/-- The next-header value that a chain ends with. -/
def lastNext (n : UInt8) (hs : List ExtHeader) : UInt8 := hs.foldl (fun _ h => h.next) n

/-- The offset that the loop ends with: that of the last fragment header. -/
def lastOffset (offset : UInt16) (hs : List ExtHeader) : UInt16 :=
  hs.foldl (fun offset h => if h.kind = 44 then h.fragmentOffset else offset) offset

/-- What the loop ends with after a chain. -/
def ExtChain.after (c : ExtChain) (hs : List ExtHeader) : ExtChain :=
  ⟨lastNext c.nextHeader hs, c.headerLen + (chainBytes hs).length, lastOffset c.fragmentOffset hs⟩

section Chains

variable {n : UInt8} {hs : List ExtHeader}

theorem ExtHeader.bytes_length (h : ExtHeader) :
    h.bytes.length = if h.kind = 44 then 8 else (h.second.toNat + 1) * 8 := by
  rw [bytes, List.length_cons, List.length_cons, h.body_length]
  split <;> omega

theorem ExtHeader.bytes_pos (h : ExtHeader) : 0 < h.bytes.length := by
  rw [bytes, List.length_cons]
  exact Nat.succ_pos _

theorem chainBytes_cons (h : ExtHeader) (hs : List ExtHeader) : chainBytes (h :: hs) = h.bytes ++ chainBytes hs :=
  List.flatMap_cons

theorem ExtChain.after_cons (c : ExtChain) (h : ExtHeader) (hs : List ExtHeader) :
    c.after (h :: hs) =
      (ExtChain.mk h.next (c.headerLen + h.bytes.length)
        (if h.kind = 44 then h.fragmentOffset else c.fragmentOffset)).after hs := by
  unfold ExtChain.after
  rw [chainBytes_cons, List.length_append, Nat.add_assoc]
  rfl

/-- A header is known by its kind and the bytes that begin with it. -/
theorem ExtHeader.eq_of_bytes {h h' : ExtHeader} {rest rest' : List UInt8} (hkind : h.kind = h'.kind)
    (hbytes : h.bytes ++ rest = h'.bytes ++ rest') : h = h' ∧ rest = rest' := by
  obtain ⟨kind, next, second, body, hext, hlen⟩ := h
  obtain ⟨kind', next', second', body', hext', hlen'⟩ := h'
  simp only at hkind
  subst hkind
  simp only [ExtHeader.bytes, List.cons_append, List.cons.injEq] at hbytes
  obtain ⟨rfl, rfl, hbody⟩ := hbytes
  obtain ⟨rfl, rfl⟩ := List.append_inj hbody (hlen.trans hlen'.symm)
  exact ⟨rfl, rfl⟩

/-- What is walked from a header on begins with it. -/
theorem Walked.first {h : ExtHeader} {walked : List ExtHeader} {more rest rest' : List UInt8}
    (hwalked : Walked h.kind walked) (hbytes : h.bytes ++ more ++ rest = chainBytes walked ++ rest') :
    ∃ hs, walked = h :: hs ∧ Walked h.next hs ∧ more ++ rest = chainBytes hs ++ rest' := by
  generalize hk : h.kind = k at hwalked
  cases hwalked with
  | stop hn => exact absurd (hk ▸ h.isExt) hn
  | more h' hwalked =>
      rw [chainBytes_cons, List.append_assoc, List.append_assoc] at hbytes
      obtain ⟨rfl, hrest⟩ := ExtHeader.eq_of_bytes hk hbytes
      exact ⟨_, rfl, hwalked, hrest⟩

/-- What is walked begins with the headers there are. -/
theorem ExtHeaders.prefix_of_walked {walked : List ExtHeader} {rest rest' : List UInt8} (h : ExtHeaders n hs)
    (hwalked : Walked n walked) (hbytes : chainBytes hs ++ rest = chainBytes walked ++ rest') :
    hs <+: walked := by
  induction h generalizing walked with
  | stop hn => exact List.nil_prefix
  | fragment h _ =>
      rw [chainBytes_cons] at hbytes
      obtain ⟨more, rfl, -, -⟩ := hwalked.first hbytes
      exact List.prefix_append [h] _
  | more h _ _ ih =>
      rw [chainBytes_cons] at hbytes
      obtain ⟨back, rfl, hback, hrest⟩ := hwalked.first hbytes
      obtain ⟨more, rfl⟩ := ih hback hrest
      exact ⟨more, rfl⟩

/-- What is walked begins with a chain of headers. -/
theorem Walked.exists_prefix (h : Walked n hs) : ∃ pre, pre <+: hs ∧ ExtHeaders n pre := by
  induction h with
  | stop hn => exact ⟨[], List.prefix_rfl, .stop hn⟩
  | @more h hs _ ih =>
      obtain ⟨pre, ⟨more, rfl⟩, hpre⟩ := ih
      by_cases hlater : h.IsLaterFragment
      · exact ⟨[h], List.prefix_append [h] _, .fragment h hlater⟩
      · exact ⟨h :: pre, ⟨more, rfl⟩, .more h hlater hpre⟩

/-- A chain is walked as it is, unless its later fragment names a further header. -/
theorem ExtHeaders.walked (h : ExtHeaders n hs) (hends : ∀ h ∈ hs, h.IsLaterFragment → ¬IsExt h.next) :
    Walked n hs := by
  induction h with
  | stop hn => exact .stop hn
  | fragment h hlater => exact .more h (.stop (hends h (List.mem_singleton_self h) hlater))
  | more h _ _ ih => exact .more h (ih fun g hg => hends g (List.mem_cons_of_mem h hg))

/-- The walk goes past a later fragment that names a further header. -/
theorem ExtHeaders.ne_walked (h : ExtHeaders n hs) {f : ExtHeader} (hf : f ∈ hs) (hlater : f.IsLaterFragment)
    (hext : IsExt f.next) : ¬Walked n hs := by
  induction h with
  | stop hn => cases hf
  | fragment h _ =>
      obtain rfl := List.mem_singleton.1 hf
      intro hwalked
      generalize f.kind = k at hwalked
      cases hwalked with
      | more _ hwalked =>
          generalize f.next = m at hwalked hext
          cases hwalked with
          | stop hn => exact hn hext
  | more h hfirst _ ih =>
      intro hwalked
      rcases List.mem_cons.1 hf with rfl | hf
      · exact hfirst hlater
      · generalize h.kind = k at hwalked
        cases hwalked with
        | more _ hwalked => exact ih hf hwalked

/-- The offset is that of a later fragment exactly if there is one. -/
theorem ExtHeaders.lastOffset_pos {offset : UInt16} (h : ExtHeaders n hs) (h0 : ¬0 < offset) :
    0 < lastOffset offset hs ↔ ∃ f ∈ hs, f.IsLaterFragment := by
  induction h generalizing offset with
  | stop hn => simpa [lastOffset] using h0
  | fragment h hlater =>
      have hkind : h.kind = 44 := by
        by_contra hne
        rw [ExtHeader.IsLaterFragment, ExtHeader.fragmentOffset, if_neg hne] at hlater
        exact absurd hlater (by decide)
      have hoffset : lastOffset offset [h] = h.fragmentOffset := if_pos hkind
      rw [hoffset]
      exact ⟨fun _ => ⟨h, List.mem_singleton_self h, hlater⟩, fun _ => hlater⟩
  | @more h hs hfirst _ ih =>
      have hnext : ¬0 < (if h.kind = 44 then h.fragmentOffset else offset) := by
        split
        · exact hfirst
        · exact h0
      have hcons : lastOffset offset (h :: hs) =
          lastOffset (if h.kind = 44 then h.fragmentOffset else offset) hs := rfl
      rw [hcons, ih hnext]
      constructor
      · rintro ⟨f, hf, hlater⟩
        exact ⟨f, List.mem_cons_of_mem h hf, hlater⟩
      · rintro ⟨f, hf, hlater⟩
        rcases List.mem_cons.1 hf with rfl | hf
        · exact absurd hlater hfirst
        · exact ⟨f, hf, hlater⟩

end Chains

/-! ## The walk -/

section Reads

variable {buf rest : List UInt8}

theorem u8_eq_ok {b : UInt8} : u8 buf = .ok (b, rest) ↔ buf = b :: rest := by
  constructor
  · intro h
    obtain ⟨taken, mid, htake, hpure⟩ := bind_eq_ok.1 h
    obtain ⟨rfl, hlen⟩ := take_eq_ok.1 htake
    obtain ⟨c, rfl⟩ := List.length_eq_one_iff.1 hlen
    obtain ⟨hb, rfl⟩ := Prod.mk.inj (Except.ok.inj hpure)
    have hbyte : UInt8.ofNat (fromBeBytes [c]) = c := by simp [fromBeBytes]
    rw [← hb, hbyte]
    rfl
  · rintro rfl
    exact u8_cons b rest

/-- A number read from bytes of a fixed count. -/
theorem takeMap_eq_ok {α : Type} {f : List UInt8 → α} {w : Nat} {v : α} :
    (do let bs ← take w; return f bs : ByteReader α) buf = .ok (v, rest) ↔
      ∃ bs, buf = bs ++ rest ∧ bs.length = w ∧ v = f bs := by
  constructor
  · intro h
    obtain ⟨bs, mid, htake, hpure⟩ := bind_eq_ok.1 h
    obtain ⟨rfl, hlen⟩ := take_eq_ok.1 htake
    obtain ⟨rfl, rfl⟩ := Prod.mk.inj (Except.ok.inj hpure)
    exact ⟨bs, rfl, hlen, rfl⟩
  · rintro ⟨bs, hbuf, hlen, rfl⟩
    exact bind_eq_ok.2 ⟨bs, rest, take_eq_ok.2 ⟨hbuf, hlen⟩, rfl⟩

theorem u16Be_eq_ok {v : UInt16} :
    u16Be buf = .ok (v, rest) ↔ ∃ bs, buf = bs ++ rest ∧ bs.length = 2 ∧ v = UInt16.ofNat (fromBeBytes bs) :=
  takeMap_eq_ok

theorem u32Be_eq_ok {v : UInt32} :
    u32Be buf = .ok (v, rest) ↔ ∃ bs, buf = bs ++ rest ∧ bs.length = 4 ∧ v = UInt32.ofNat (fromBeBytes bs) :=
  takeMap_eq_ok

end Reads

/-- The loop ends at a value that names no extension header. -/
theorem walk_stop {c : ExtChain} (hn : ¬IsExt c.nextHeader) (left : Nat) : walkExtHeaders left c = pure c := by
  cases left with
  | zero => exact if_neg hn
  | succ left => exact if_neg hn

/-- A ninth extension header is refused. -/
theorem walk_zero {c : ExtChain} (hext : IsExt c.nextHeader) :
    walkExtHeaders 0 c = throw (.malformed "extension header chain too long") := if_pos hext

theorem pure_eq_ok {α : Type} {a b : α} {buf rest : List UInt8} :
    (pure a : ByteReader α) buf = .ok (b, rest) ↔ b = a ∧ rest = buf := by
  constructor
  · intro h
    obtain ⟨rfl, rfl⟩ := Prod.mk.inj (Except.ok.inj h)
    exact ⟨rfl, rfl⟩
  · rintro ⟨rfl, rfl⟩
    rfl

theorem Walked.nil_of_not_ext {n : UInt8} {hs : List ExtHeader} (h : Walked n hs) (hn : ¬IsExt n) : hs = [] := by
  cases h with
  | stop => rfl
  | more h _ => exact absurd h.isExt hn

theorem Walked.ne_nil_of_ext {n : UInt8} {hs : List ExtHeader} (h : Walked n hs) (hn : IsExt n) : hs ≠ [] := by
  cases h with
  | stop hnot => exact absurd hn hnot
  | more h _ => exact List.cons_ne_nil _ _

/-- What one turn of the loop leaves: the chain without the header, and the bytes behind it. -/
theorem walk_step {left : Nat} {c : ExtChain} (hext : IsExt c.nextHeader) {buf : List UInt8}
    {r : ExtChain × List UInt8} :
    walkExtHeaders (left + 1) c buf = .ok r ↔ ∃ (h : ExtHeader) (rest : List UInt8), h.kind = c.nextHeader ∧ buf = h.bytes ++ rest ∧
      walkExtHeaders left ⟨h.next, c.headerLen + h.bytes.length,
        if h.kind = 44 then h.fragmentOffset else c.fragmentOffset⟩ rest = .ok r := by
  obtain ⟨chain, out⟩ := r
  have hmem : c.nextHeader ∈ ([0, 43, 44, 60] : List UInt8) := hext
  rw [walkExtHeaders, if_pos hmem]
  -- a fragment header has a fixed length, another one says its own
  by_cases hfragment : c.nextHeader = 44
  · simp only [hfragment, if_true]
    constructor
    · intro hread
      obtain ⟨next, buf₁, hnext, hread⟩ := bind_eq_ok.1 hread
      obtain ⟨second, buf₂, hsecond, hread⟩ := bind_eq_ok.1 hread
      obtain ⟨flags, buf₃, hflags, hread⟩ := bind_eq_ok.1 hread
      obtain ⟨ident, buf₄, hident, hwalk⟩ := bind_eq_ok.1 hread
      obtain rfl := u8_eq_ok.1 hnext
      obtain rfl := u8_eq_ok.1 hsecond
      obtain ⟨bs, rfl, hbs, rfl⟩ := u16Be_eq_ok.1 hflags
      obtain ⟨cs, rfl, hcs, rfl⟩ := u32Be_eq_ok.1 hident
      refine ⟨⟨44, next, second, bs ++ cs, by decide, by simp [hbs, hcs]⟩, buf₄, rfl, ?_, ?_⟩
      · simp [ExtHeader.bytes]
      · rw [ExtHeader.bytes_length]
        simp only [ExtHeader.fragmentOffset, if_true, ← hbs, List.take_left]
        exact hwalk
    · rintro ⟨⟨kind, next, second, body, hkind, hbody⟩, rest, hk, rfl, hwalk⟩
      simp only at hk
      subst hk
      rw [if_pos rfl] at hbody
      rw [ExtHeader.bytes_length] at hwalk
      have hsplit : body ++ rest = body.take 2 ++ (body.drop 2 ++ rest) := by
        rw [← List.append_assoc, List.take_append_drop]
      refine bind_eq_ok.2 ⟨next, second :: body ++ rest, u8_eq_ok.2 rfl, ?_⟩
      refine bind_eq_ok.2 ⟨second, body ++ rest, u8_eq_ok.2 rfl, ?_⟩
      refine bind_eq_ok.2 ⟨_, body.drop 2 ++ rest, u16Be_eq_ok.2 ⟨body.take 2, hsplit, by simp [hbody], rfl⟩, ?_⟩
      refine bind_eq_ok.2 ⟨_, rest, u32Be_eq_ok.2 ⟨body.drop 2, rfl, by simp [hbody], rfl⟩, ?_⟩
      simp only [ExtHeader.fragmentOffset, if_true] at hwalk
      exact hwalk
  · simp only [hfragment, if_false]
    constructor
    · intro hread
      obtain ⟨next, buf₁, hnext, hread⟩ := bind_eq_ok.1 hread
      obtain ⟨second, buf₂, hsecond, hread⟩ := bind_eq_ok.1 hread
      obtain ⟨body, buf₃, hbody, hwalk⟩ := bind_eq_ok.1 hread
      obtain rfl := u8_eq_ok.1 hnext
      obtain rfl := u8_eq_ok.1 hsecond
      obtain ⟨rfl, hlen⟩ := take_eq_ok.1 hbody
      refine ⟨⟨c.nextHeader, next, second, body, hext, by rw [if_neg hfragment]; exact hlen⟩, buf₃, rfl, rfl, ?_⟩
      rw [ExtHeader.bytes_length]
      simp only [hfragment, if_false]
      exact hwalk
    · rintro ⟨⟨kind, next, second, body, hkind, hbody⟩, rest, hk, rfl, hwalk⟩
      simp only at hk
      subst hk
      rw [if_neg hfragment] at hbody
      rw [ExtHeader.bytes_length] at hwalk
      refine bind_eq_ok.2 ⟨next, second :: body ++ rest, u8_eq_ok.2 rfl, ?_⟩
      refine bind_eq_ok.2 ⟨second, body ++ rest, u8_eq_ok.2 rfl, ?_⟩
      refine bind_eq_ok.2 ⟨body, rest, take_eq_ok.2 ⟨rfl, hbody⟩, ?_⟩
      simp only [hfragment, if_false] at hwalk
      exact hwalk

theorem walk_eq_ok_stop {left : Nat} {c c' : ExtChain} {buf rest : List UInt8} (hn : ¬IsExt c.nextHeader) :
    walkExtHeaders left c buf = .ok (c', rest) ↔
      ∃ hs, Walked c.nextHeader hs ∧ hs.length ≤ left ∧ buf = chainBytes hs ++ rest ∧ c' = c.after hs := by
  rw [walk_stop hn, pure_eq_ok]
  constructor
  · rintro ⟨rfl, rfl⟩
    exact ⟨[], .stop hn, Nat.zero_le _, rfl, rfl⟩
  · rintro ⟨hs, hwalked, -, rfl, rfl⟩
    obtain rfl := hwalked.nil_of_not_ext hn
    exact ⟨rfl, rfl⟩

/-- The walk succeeds on the bytes of a chain that is short enough, and leaves what is behind it. -/
theorem walk_eq_ok {left : Nat} {c c' : ExtChain} {buf rest : List UInt8} :
    walkExtHeaders left c buf = .ok (c', rest) ↔
      ∃ hs, Walked c.nextHeader hs ∧ hs.length ≤ left ∧ buf = chainBytes hs ++ rest ∧ c' = c.after hs := by
  induction left generalizing c buf with
  | zero =>
      by_cases hext : IsExt c.nextHeader
      · rw [walk_zero hext]
        constructor
        · intro h
          cases h
        · rintro ⟨hs, hwalked, hlen, -⟩
          exact absurd (List.length_eq_zero_iff.1 (Nat.le_zero.1 hlen)) (hwalked.ne_nil_of_ext hext)
      · exact walk_eq_ok_stop hext
  | succ left ih =>
      by_cases hext : IsExt c.nextHeader
      · rw [walk_step hext]
        constructor
        · rintro ⟨h, mid, hkind, rfl, hwalk⟩
          obtain ⟨hs, hwalked, hlen, rfl, rfl⟩ := ih.1 hwalk
          refine ⟨h :: hs, hkind ▸ .more h hwalked, Nat.succ_le_succ hlen, ?_, (c.after_cons h hs).symm⟩
          rw [chainBytes_cons, List.append_assoc]
        · rintro ⟨hs, hwalked, hlen, rfl, rfl⟩
          generalize hn : c.nextHeader = n at hwalked hext ⊢
          cases hwalked with
          | stop hnot => exact absurd hext hnot
          | @more h hs hwalked =>
              refine ⟨h, chainBytes hs ++ rest, rfl, ?_, ih.2 ⟨hs, hwalked, Nat.le_of_succ_le_succ hlen, rfl,
                c.after_cons h hs⟩⟩
              rw [chainBytes_cons, List.append_assoc]
      · exact walk_eq_ok_stop hext

/-! ## Datagrams -/

/-- An IPv6 packet: the fixed header, the extension headers it leads to, eight at most, and what is behind
them. -/
structure Datagram where
  verTcFl : List UInt8
  payloadLen : List UInt8
  nextHeader : UInt8
  hopLimit : UInt8
  src : List UInt8
  dst : List UInt8
  headers : List ExtHeader
  payload : List UInt8
  verTcFl_length : verTcFl.length = 4
  version : fromBeBytes verTcFl / 2 ^ 28 = 6
  payloadLen_length : payloadLen.length = 2
  src_length : src.length = 16
  dst_length : dst.length = 16
  chain : ExtHeaders nextHeader headers
  atMost : headers.length ≤ maxExtHeaders

namespace Datagram

/-- The bytes behind the fixed header. -/
def behind (d : Datagram) : List UInt8 := chainBytes d.headers ++ d.payload

/-- The packet as it is sent. -/
def bytes (d : Datagram) : List UInt8 :=
  d.verTcFl ++ (d.payloadLen ++ (d.nextHeader :: d.hopLimit :: (d.src ++ (d.dst ++ d.behind))))

/-- The length of the headers. -/
def headerLen (d : Datagram) : Nat := 40 + (d.headers.map fun h => h.bytes.length).sum

/-- What is behind the headers: nothing that is parsed in a later fragment. -/
def hint (d : Datagram) : Hint :=
  if ∃ h ∈ d.headers, h.IsLaterFragment then .terminal
  else .route (.ipProtocol (lastNext d.nextHeader d.headers))

end Datagram

/-- The parse succeeds exactly on packets, and takes their headers for the header. -/
def Conforms (ctx : ParseCtx) (bytes : List UInt8) : Prop :=
  ((∃ layer, (parseIpv6 ctx).parse bytes = .ok layer) ↔ ∃ d : Datagram, d.bytes = bytes) ∧
    ∀ (d : Datagram) layer, d.bytes = bytes → (parseIpv6 ctx).parse bytes = .ok layer →
      layer.headerLen = d.headerLen ∧ layer.hint = d.hint

/-- No later fragment of the packet names an extension header behind its own. -/
def FragmentsEnd (bytes : List UInt8) : Prop :=
  ∀ d : Datagram, d.bytes = bytes → ∀ h ∈ d.headers, h.IsLaterFragment → ¬IsExt h.next

/-- The bytes begin with a fixed header, and the loop goes over these headers behind it. -/
structure Covers (bytes verTcFl payloadLen : List UInt8) (nextHeader hopLimit : UInt8) (src dst : List UInt8)
    (hs : List ExtHeader) (payload : List UInt8) : Prop where
  verTcFl_length : verTcFl.length = 4
  version : fromBeBytes verTcFl / 2 ^ 28 = 6
  payloadLen_length : payloadLen.length = 2
  src_length : src.length = 16
  dst_length : dst.length = 16
  walked : Walked nextHeader hs
  atMost : hs.length ≤ maxExtHeaders
  bytes_eq : bytes = verTcFl ++ (payloadLen ++ (nextHeader :: hopLimit :: (src ++ (dst ++
    (chainBytes hs ++ payload)))))

section Parse

variable {ctx : ParseCtx} {bytes : List UInt8} {layer : ParsedLayer}

theorem version_iff {bs : List UInt8} (hlen : bs.length = 4) :
    UInt32.ofNat (fromBeBytes bs) >>> 28 ≠ 6 ↔ fromBeBytes bs / 2 ^ 28 ≠ 6 := by
  obtain ⟨a, b, c, d, rfl⟩ : ∃ a b c d, bs = [a, b, c, d] := by
    match bs, hlen with
    | [a, b, c, d], _ => exact ⟨a, b, c, d, rfl⟩
  have hlt : fromBeBytes [a, b, c, d] < 2 ^ 32 := by
    have ha := a.toNat_lt
    have hb := b.toNat_lt
    have hc := c.toNat_lt
    have hd := d.toNat_lt
    simp only [fromBeBytes, List.foldl_cons, List.foldl_nil]
    omega
  rw [not_iff_not, ← UInt32.toNat_inj, UInt32.toNat_shiftRight, UInt32.toNat_ofNat_of_lt' hlt,
    Nat.shiftRight_eq_div_pow]
  rfl

/-- The parse succeeds exactly if the loop comes to its end. -/
theorem parseIpv6_eq_ok : (parseIpv6 ctx).parse bytes = .ok layer →
    ∃ v p n l s d hs rest, Covers bytes v p n l s d hs rest ∧
      layer.headerLen = 40 + (chainBytes hs).length ∧
      layer.hint = if 0 < lastOffset 0 hs then Hint.terminal else .route (.ipProtocol (lastNext n hs)) := by
  intro h
  obtain ⟨rest, hread⟩ := parse_eq_ok.1 h
  obtain ⟨ver, buf₁, hver, hread⟩ := bind_eq_ok.1 hread
  obtain ⟨v, rfl, hv, rfl⟩ := u32Be_eq_ok.1 hver
  by_cases hversion : UInt32.ofNat (fromBeBytes v) >>> 28 ≠ 6
  · rw [if_pos hversion] at hread
    cases hread
  · rw [if_neg hversion] at hread
    obtain ⟨len, buf₂, hlen, hread⟩ := bind_eq_ok.1 hread
    obtain ⟨n, buf₃, hn, hread⟩ := bind_eq_ok.1 hread
    obtain ⟨l, buf₄, hl, hread⟩ := bind_eq_ok.1 hread
    obtain ⟨s, buf₅, hs, hread⟩ := bind_eq_ok.1 hread
    obtain ⟨d, buf₆, hd, hread⟩ := bind_eq_ok.1 hread
    obtain ⟨chain, buf₇, hwalk, hread⟩ := bind_eq_ok.1 hread
    obtain ⟨rfl, rfl⟩ := pure_eq_ok.1 hread
    obtain ⟨p, rfl, hp, rfl⟩ := u16Be_eq_ok.1 hlen
    obtain rfl := u8_eq_ok.1 hn
    obtain rfl := u8_eq_ok.1 hl
    obtain ⟨rfl, hslen⟩ := take_eq_ok.1 hs
    obtain ⟨rfl, hdlen⟩ := take_eq_ok.1 hd
    obtain ⟨hs', hwalked, hatMost, rfl, rfl⟩ := walk_eq_ok.1 hwalk
    rw [version_iff hv, not_not] at hversion
    exact ⟨v, p, n, l, s, d, hs', _, ⟨hv, hversion, hp, hslen, hdlen, hwalked, hatMost, rfl⟩, rfl, rfl⟩

theorem Covers.parse (ctx : ParseCtx) {v p s d : List UInt8} {n l : UInt8} {hs : List ExtHeader}
    {rest : List UInt8} (h : Covers bytes v p n l s d hs rest) : ∃ layer, (parseIpv6 ctx).parse bytes = .ok layer ∧
      layer.headerLen = 40 + (chainBytes hs).length ∧
      layer.hint = if 0 < lastOffset 0 hs then Hint.terminal else .route (.ipProtocol (lastNext n hs)) := by
  have hversion := not_congr (version_iff h.verTcFl_length)
  have hwalk : walkExtHeaders maxExtHeaders ⟨n, 40, 0⟩ (chainBytes hs ++ rest) =
      .ok ((ExtChain.mk n 40 0).after hs, rest) := walk_eq_ok.2 ⟨hs, h.walked, h.atMost, rfl, rfl⟩
  have hrun : (parseIpv6 ctx).parse bytes = Except.map Prod.fst (parseIpv6 ctx bytes) := rfl
  rw [hrun, parseIpv6, h.bytes_eq, bind_of_ok (u32Be_eq_ok.2 ⟨v, rfl, h.verTcFl_length, rfl⟩)]
  dsimp only
  rw [if_neg (hversion.2 (not_not_intro h.version)), bind_of_ok (u16Be_eq_ok.2 ⟨p, rfl, h.payloadLen_length, rfl⟩),
    bind_of_ok (u8_eq_ok.2 rfl), bind_of_ok (u8_eq_ok.2 rfl), bind_of_ok (take_eq_ok.2 ⟨rfl, h.src_length⟩),
    bind_of_ok (take_eq_ok.2 ⟨rfl, h.dst_length⟩), bind_of_ok hwalk]
  exact ⟨_, rfl, rfl, rfl⟩

/-- A packet whose later fragment ends the headers is walked as it is. -/
theorem Datagram.covers (d : Datagram) (hends : ∀ h ∈ d.headers, h.IsLaterFragment → ¬IsExt h.next) :
    Covers d.bytes d.verTcFl d.payloadLen d.nextHeader d.hopLimit d.src d.dst d.headers d.payload :=
  ⟨d.verTcFl_length, d.version, d.payloadLen_length, d.src_length, d.dst_length, d.chain.walked hends, d.atMost,
    rfl⟩

/-- The headers of a packet are those that the loop goes over, or the first of them. -/
theorem Datagram.headers_prefix (d : Datagram) {v p s t : List UInt8} {n l : UInt8} {hs : List ExtHeader}
    {rest : List UInt8} (h : Covers d.bytes v p n l s t hs rest) : n = d.nextHeader ∧ d.headers <+: hs := by
  have heq := h.bytes_eq
  rw [Datagram.bytes] at heq
  obtain ⟨-, heq⟩ := List.append_inj heq (d.verTcFl_length.trans h.verTcFl_length.symm)
  obtain ⟨-, heq⟩ := List.append_inj heq (d.payloadLen_length.trans h.payloadLen_length.symm)
  obtain ⟨hn, heq⟩ := List.cons.inj heq
  obtain ⟨-, heq⟩ := List.cons.inj heq
  obtain ⟨-, heq⟩ := List.append_inj heq (d.src_length.trans h.src_length.symm)
  obtain ⟨-, heq⟩ := List.append_inj heq (d.dst_length.trans h.dst_length.symm)
  exact ⟨hn.symm, d.chain.prefix_of_walked (hn ▸ h.walked) heq⟩

theorem chainBytes_length (hs : List ExtHeader) :
    (chainBytes hs).length = (hs.map fun h => h.bytes.length).sum := by
  rw [chainBytes, List.length_flatMap]

theorem eq_nil_of_chainBytes {hs : List ExtHeader} (h : (chainBytes hs).length = 0) : hs = [] := by
  cases hs with
  | nil => rfl
  | cons h₀ hs =>
      rw [chainBytes_cons, List.length_append] at h
      have hpos := h₀.bytes_pos
      omega

/-- A packet of which a later fragment names a further header has a parse that goes on behind it, or none. -/
theorem not_conforms (d : Datagram) {f : ExtHeader} (hf : f ∈ d.headers) (hlater : f.IsLaterFragment)
    (hext : IsExt f.next) : ¬Conforms ctx d.bytes := by
  intro h
  obtain ⟨layer, hparse⟩ := h.1.2 ⟨d, rfl⟩
  obtain ⟨hlen, -⟩ := h.2 d layer rfl hparse
  obtain ⟨v, p, n, l, s, t, hs, rest, hcovers, hwalkedLen, -⟩ := parseIpv6_eq_ok hparse
  obtain ⟨rfl, more, rfl⟩ := d.headers_prefix hcovers
  -- the parse ends where the chain does, so it has walked nothing more
  have hmore : (chainBytes more).length = 0 := by
    have happend : chainBytes (d.headers ++ more) = chainBytes d.headers ++ chainBytes more := List.flatMap_append
    rw [hwalkedLen, Datagram.headerLen, happend, List.length_append, chainBytes_length d.headers] at hlen
    omega
  obtain rfl := eq_nil_of_chainBytes hmore
  have hwalked := hcovers.walked
  rw [List.append_nil] at hwalked
  exact d.chain.ne_walked hf hlater hext hwalked

/-- The parse of a packet whose later fragment ends the headers. -/
theorem Datagram.parse (d : Datagram) (ctx : ParseCtx)
    (hends : ∀ h ∈ d.headers, h.IsLaterFragment → ¬IsExt h.next) :
    ∃ layer, (parseIpv6 ctx).parse d.bytes = .ok layer ∧ layer.headerLen = d.headerLen ∧ layer.hint = d.hint := by
  obtain ⟨layer, hparse, hlen, hhint⟩ := Covers.parse ctx (d.covers hends)
  refine ⟨layer, hparse, ?_, ?_⟩
  · rw [hlen, Datagram.headerLen, chainBytes_length]
  · rw [hhint, Datagram.hint]
    exact if_congr (d.chain.lastOffset_pos (by decide)) rfl rfl

/-- A successful parse is that of a packet. -/
theorem exists_datagram (h : (parseIpv6 ctx).parse bytes = .ok layer) : ∃ d : Datagram, d.bytes = bytes := by
  obtain ⟨v, p, n, l, s, t, hs, rest, hcovers, -, -⟩ := parseIpv6_eq_ok h
  obtain ⟨pre, ⟨more, rfl⟩, hpre⟩ := hcovers.walked.exists_prefix
  have hatMost : pre.length ≤ maxExtHeaders := by
    have hle := hcovers.atMost
    rw [List.length_append] at hle
    omega
  refine ⟨⟨v, p, n, l, s, t, pre, chainBytes more ++ rest, hcovers.verTcFl_length, hcovers.version,
    hcovers.payloadLen_length, hcovers.src_length, hcovers.dst_length, hpre, hatMost⟩, ?_⟩
  have happend : chainBytes (pre ++ more) = chainBytes pre ++ chainBytes more := List.flatMap_append
  refine Eq.trans ?_ hcovers.bytes_eq.symm
  rw [happend]
  simp only [Datagram.bytes, Datagram.behind, List.append_assoc]

end Parse

/-- The parse does as it should on all bytes but the packets of which a later fragment names a further extension
header. -/
theorem conforms_iff (ctx : ParseCtx) (bytes : List UInt8) : Conforms ctx bytes ↔ FragmentsEnd bytes := by
  constructor
  · rintro h d rfl f hf hlater hext
    exact not_conforms d hf hlater hext h
  · intro h
    refine ⟨⟨fun ⟨layer, hparse⟩ => exists_datagram hparse, ?_⟩, ?_⟩
    · rintro ⟨d, rfl⟩
      obtain ⟨layer, hparse, -⟩ := d.parse ctx (h d rfl)
      exact ⟨layer, hparse⟩
    · rintro d layer rfl hparse
      obtain ⟨layer', hparse', hlen, hhint⟩ := d.parse ctx (h d rfl)
      obtain rfl := Except.ok.inj (hparse.symm.trans hparse')
      exact ⟨hlen, hhint⟩

/-- The second fragment of a packet whose fragments carry destination options: its payload begins behind the
fragment header. -/
def secondFragment : Datagram where
  verTcFl := [0x60, 0, 0, 0]
  payloadLen := [0, 16]
  nextHeader := 44
  hopLimit := 64
  src := List.replicate 16 1
  dst := List.replicate 16 2
  headers := [⟨44, 60, 0, [0, 8, 0, 0, 0, 7], by decide, by decide⟩]
  payload := [6, 0, 0, 0, 0, 0, 0, 0]
  verTcFl_length := rfl
  version := rfl
  payloadLen_length := rfl
  src_length := rfl
  dst_length := rfl
  chain := .fragment ⟨44, 60, 0, [0, 8, 0, 0, 0, 7], by decide, by decide⟩ (by decide)
  atMost := by decide

/-- Eight bytes of the payload of a second fragment are taken for a header. -/
theorem conforms_fails : ¬Conforms ⟨[], .structural, ⟨0, 64, 64, 0⟩⟩ secondFragment.bytes := by
  apply not_conforms secondFragment (List.mem_singleton_self _)
  · decide
  · decide

end Pktflow.Plugins
