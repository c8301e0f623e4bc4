import Libuv.L1Data.InetGrammar
import Mathlib.Data.List.DropRight

/-!
# An address with a zone (`uv-common.c`)

`uv_ip6_addr` copies what is before the `%` into 40 bytes, and what does not fit is cut off. An IPv6 text without a quad has at
most 39 characters. With a quad it may have up to 45, and the quad begins behind at most 30 of them, so that the cut goes
through the quad and the rest may well be another one.

* `ip6Addr_zone_iff`: so a zone changes nothing for texts of at most 39 characters, and for others only where neither the
  text nor its first 39 characters denote an address.
-/
namespace Libuv.L1.Inet

open List

def ADDRESS_PART_SIZE : ℕ := 40

structure SockaddrIn6 where
  family : Af
  port : List UInt8
  addr : List UInt8
  scopeId : ℕ
deriving DecidableEq

def htons (port : ℤ) : List UInt8 := [UInt8.ofNat ((port % 65536).toNat / 256), UInt8.ofNat ((port % 65536).toNat % 256)]

/-- `ifIndex` is `if_nametoindex`, on Windows `atoi`.
mirrors uv-common.c:232-264 -/
def uvIp6Addr (ifIndex : List Char → ℕ) (ip : List Char) (port : ℤ) : Option Errno × SockaddrIn6 :=
  let addr : SockaddrIn6 := ⟨.inet6, htons port, List.replicate 16 0, 0⟩
  match ip.idxOf? '%' with
  | some zone =>
    let size := if ADDRESS_PART_SIZE ≤ zone then ADDRESS_PART_SIZE - 1 else zone
    let res := inetPtonInto .inet6 (ip.take size) addr.addr
    (res.1, { addr with addr := res.2, scopeId := ifIndex (ip.drop (zone + 1)) })
  | none =>
    let res := inetPtonInto .inet6 ip addr.addr
    (res.1, { addr with addr := res.2 })

/-- The zone changes the scope of an address, and nothing else. -/
def ZoneOnly (ifIndex : List Char → ℕ) (a z : List Char) (port : ℤ) : Prop :=
  let x := uvIp6Addr ifIndex (a ++ '%' :: z) port
  let y := uvIp6Addr ifIndex a port
  x.1 = y.1 ∧ (x.1 = none → x.2 = { y.2 with scopeId := x.2.scopeId })

/-! ## Where the quad is -/

def lastTok (s : List Char) : List Char := s.rtakeWhile (· ≠ ':')

theorem lastTok_eq {t : List Char} (ht : ':' ∉ t) (p : List Char) : lastTok (p ++ ':' :: t) = t := by
  have hall : ∀ ch ∈ t.reverse, (ch ≠ ':' : Bool) = true := by
    intro ch hch
    have hne : ch ≠ ':' := by
      intro h
      subst h
      exact ht (mem_reverse.1 hch)
    simp [hne]
  rw [lastTok, List.rtakeWhile, reverse_append, reverse_cons, append_assoc,
    takeWhile_append_of_pos hall, singleton_append, takeWhile_cons_of_neg (by decide), append_nil, reverse_reverse]

variable {s a : List Char} {bs : List UInt8} {err : Errno}

theorem Hex.xdigit {v : ℕ} (hs : Hex s v) : ∀ ch ∈ s, (Inet.xdigit ch).isSome := by
  induction hs with
  | nil => exact fun ch hch => absurd hch not_mem_nil
  | @snoc s v c d hs hd ih =>
    intro ch hch
    rcases mem_append.1 hch with hch | hch
    · exact ih ch hch
    · obtain rfl := mem_singleton.1 hch
      rw [(xdigit_iff _ d).2 hd]
      rfl

theorem Hex.not_mem {v : ℕ} (hs : Hex s v) : ':' ∉ s ∧ '.' ∉ s := by
  constructor
  · intro hmem
    have hx := hs.xdigit _ hmem
    rw [xdigit_colon] at hx
    cases hx
  · intro hmem
    have hx := hs.xdigit _ hmem
    rw [xdigit_dot] at hx
    cases hx

theorem dec_not_mem (b : UInt8) : ':' ∉ dec b := by
  obtain ⟨v, hv⟩ := hex_dec b
  exact hv.not_mem.1

theorem Octets.not_mem (h : Octets s bs) : ':' ∉ s := by
  induction h with
  | one b => exact dec_not_mem b
  | cons b h ih =>
    intro hmem
    rcases mem_append.1 hmem with hmem | hmem
    · exact dec_not_mem b hmem
    · rcases mem_cons.1 hmem with hmem | hmem
      · exact absurd hmem (by decide)
      · exact ih hmem

theorem Octets.inj {t : List Char} (hs : Octets s bs) (ht : Octets t bs) : s = t := by
  induction hs generalizing t with
  | one b =>
    cases ht with
    | one => rfl
    | cons _ h => cases h
  | cons b h ih =>
    cases ht with
    | one => cases h
    | cons _ h' => rw [ih h']

theorem Groups.shape {q : Bool} (h : Groups q s bs) :
    ('.' ∉ s ∧ 2 * s.length + 2 ≤ 5 * bs.length) ∨
      (q = true ∧ ∃ p t as os, s = p ++ t ∧ Quad t os ∧ bs = as ++ os ∧ 2 * p.length ≤ 5 * as.length ∧
        (p = [] ∧ as = [] ∨ ∃ p', p = p' ++ [':'])) := by
  have hlen (v : ℕ) : (group v).length = 2 := rfl
  induction h with
  | @one s v hs =>
    have h4 := hs.2.2
    exact .inl ⟨hs.1.not_mem.2, by rw [hlen]; omega⟩
  | @quad s bs hq hs => exact .inr ⟨hq, [], s, [], bs, rfl, hs, rfl, Nat.zero_le _, .inl ⟨rfl, rfl⟩⟩
  | @cons s t v bs hs ht ih =>
    have h4 := hs.2.2
    rcases ih with ⟨hdot, h5⟩ | ⟨hq, p, u, as, os, rfl, hu, rfl, h5, hp⟩
    · refine .inl ⟨fun hmem => ?_, ?_⟩
      · rcases mem_append.1 hmem with hmem | hmem
        · exact hs.1.not_mem.2 hmem
        · exact hdot (mem_of_ne_of_mem (by decide) hmem)
      · rw [length_append, length_append, length_cons, hlen]
        omega
    · refine .inr ⟨hq, s ++ ':' :: p, u, group v ++ as, os, ?_, hu, (append_assoc _ _ _).symm, ?_, .inr ?_⟩
      · rw [append_assoc, cons_append]
      · rw [length_append, length_append, length_cons, hlen]
        omega
      · rcases hp with ⟨rfl, -⟩ | ⟨p', rfl⟩
        · exact ⟨s, rfl⟩
        · exact ⟨s ++ ':' :: p', by rw [append_assoc, cons_append]⟩

theorem Side.shape {q : Bool} (h : Side q s bs) :
    ('.' ∉ s ∧ 2 * s.length ≤ 5 * bs.length) ∨
      (q = true ∧ ∃ p t as os, s = p ++ t ∧ Quad t os ∧ bs = as ++ os ∧ 2 * p.length ≤ 5 * as.length ∧
        (p = [] ∧ as = [] ∨ ∃ p', p = p' ++ [':'])) := by
  rcases h with ⟨rfl, rfl⟩ | h
  · exact .inl ⟨not_mem_nil, Nat.zero_le _⟩
  · rcases h.shape with ⟨hdot, h5⟩ | h
    · exact .inl ⟨hdot, by omega⟩
    · exact .inr h

theorem drop_bytes {as os : List UInt8} (hos : os.length = 4) (h : (as ++ os).length = 16) : (as ++ os).drop 12 = os := by
  rw [length_append] at h
  exact drop_left' (by omega)

theorem Text.last (h : Text s bs) :
    ('.' ∉ s ∧ s.length ≤ 39) ∨ ∃ p t, s = p ++ ':' :: t ∧ p.length ≤ 29 ∧ Quad t (bs.drop 12) := by
  cases h with
  | full h hlen =>
    rcases h.shape with ⟨hdot, h5⟩ | ⟨-, p, t, as, os, rfl, ht, rfl, h5, hp⟩
    · exact .inl ⟨hdot, by omega⟩
    · have hos := ht.2
      rcases hp with ⟨-, rfl⟩ | ⟨p', rfl⟩
      · rw [nil_append, hos] at hlen
        cases hlen
      · have hdrop := drop_bytes hos hlen
        rw [length_append] at hlen h5
        refine .inr ⟨p', t, by rw [append_assoc]; rfl, ?_, by rw [hdrop]; exact ht⟩
        rw [length_singleton] at h5
        omega
  | @gap a b as bs' ha hb hlen =>
    obtain ⟨hdota, h5a⟩ := ha.shape.resolve_right fun h => by cases h.1
    rcases hb.shape with ⟨hdotb, h5b⟩ | ⟨-, p, t, cs, os, rfl, ht, rfl, h5b, hp⟩
    · refine .inl ⟨fun hmem => ?_, ?_⟩
      · rcases mem_append.1 hmem with hmem | hmem
        · exact hdota hmem
        · exact hdotb (mem_of_ne_of_mem (by decide) (mem_of_ne_of_mem (by decide) hmem))
      · rw [length_append, length_cons, length_cons]
        omega
    · have hos := ht.2
      rw [length_append] at hlen
      have hquad : (as ++ List.replicate (16 - (as.length + (cs ++ os).length)) 0 ++ (cs ++ os)).drop 12 = os := by
        rw [← append_assoc]
        refine drop_bytes hos ?_
        simp only [length_append, length_replicate]
        omega
      rw [hquad]
      rcases hp with ⟨rfl, rfl⟩ | ⟨p', rfl⟩
      · refine .inr ⟨a ++ [':'], t, by rw [append_assoc]; rfl, ?_, ht⟩
        rw [length_append, length_singleton]
        omega
      · refine .inr ⟨a ++ ':' :: ':' :: p', t, by simp, ?_, ht⟩
        rw [length_append] at h5b
        rw [length_append, length_cons, length_cons]
        omega

theorem cut_ne {bs' : List UInt8} (ha : Text a bs) (hlong : 40 ≤ a.length) (hcut : Text (a.take 39) bs') :
    bs' ≠ bs := by
  intro h
  subst h
  rcases ha.last with ⟨-, h39⟩ | ⟨p, t, rfl, hp, ht⟩
  · omega
  have htake : (p ++ ':' :: t).take 39 = p ++ ':' :: t.take (38 - p.length) := by
    have h39 : 39 - p.length = 38 - p.length + 1 := by omega
    rw [take_append, take_of_length_le (by omega), h39, take_succ_cons]
  rw [htake] at hcut
  -- what is left of the quad has its first dot
  obtain ⟨b, u, rfl⟩ := ht.split
  have h3 : (dec b).length ≤ 3 := octet_length b
  have hdot : '.' ∈ (dec b ++ '.' :: u).take (38 - p.length) := by
    rw [take_append]
    obtain ⟨k, hk⟩ := Nat.exists_eq_add_of_lt (show 0 < 38 - p.length - (dec b).length by omega)
    rw [hk]
    exact mem_append_right _ mem_cons_self
  have hcolon : ':' ∉ (dec b ++ '.' :: u).take (38 - p.length) := fun h => ht.1.not_mem (mem_of_mem_take h)
  rcases hcut.last with ⟨hno, -⟩ | ⟨p', t', hsame, -, ht'⟩
  · exact hno (mem_append_right _ (mem_cons_of_mem _ hdot))
  · have htok := lastTok_eq hcolon p
    rw [hsame, lastTok_eq ht'.1.not_mem] at htok
    rw [htok] at ht'
    have hlen := congrArg List.length (ht.1.inj ht'.1)
    rw [length_take] at hlen
    rw [length_append, length_cons] at hlong
    omega

/-! ## The zone -/

theorem inetPtonInto_bare (hs : '%' ∉ s) (dst : List UInt8) :
    (∃ bs, Text s bs ∧ inetPtonInto .inet6 s dst = (none, bs)) ∨
      (∀ bs, ¬Text s bs) ∧ inetPtonInto .inet6 s dst = (some .einval, dst) := by
  unfold inetPtonInto
  rw [uvInetPton_bare hs]
  cases hread : inetPton6 s with
  | ok bs => exact .inl ⟨bs, (inetPton6_iff s bs).1 hread, rfl⟩
  | error err =>
    refine .inr ⟨fun bs h => ?_, by rw [inetPton6_error hread]⟩
    rw [(inetPton6_iff s bs).2 h] at hread
    cases hread

theorem uvIp6Addr_bare {ifIndex : List Char → ℕ} (ha : '%' ∉ a) (port : ℤ) :
    uvIp6Addr ifIndex a port =
      ((inetPtonInto .inet6 a (List.replicate 16 0)).1,
        ⟨.inet6, htons port, (inetPtonInto .inet6 a (List.replicate 16 0)).2, 0⟩) := by
  rw [uvIp6Addr, idxOf?_eq_none_iff.2 ha]

theorem uvIp6Addr_zone {ifIndex : List Char → ℕ} (ha : '%' ∉ a) (z : List Char) (port : ℤ) :
    uvIp6Addr ifIndex (a ++ '%' :: z) port =
      ((inetPtonInto .inet6 (a.take 39) (List.replicate 16 0)).1,
        ⟨.inet6, htons port, (inetPtonInto .inet6 (a.take 39) (List.replicate 16 0)).2, ifIndex z⟩) := by
  have htake : (a ++ '%' :: z).take (if ADDRESS_PART_SIZE ≤ a.length then ADDRESS_PART_SIZE - 1 else a.length) = a.take 39 := by
    unfold ADDRESS_PART_SIZE
    split
    · next hlong => exact take_append_of_le_length (by omega)
    · next hshort => rw [take_left, take_of_length_le (by omega)]
  have hdrop : (a ++ '%' :: z).drop (a.length + 1) = z := by
    rw [append_cons, drop_left' (by rw [length_append]; rfl)]
  rw [uvIp6Addr, idxOf_zone ha]
  dsimp only
  rw [htake, hdrop]

/-- **A zone changes nothing but the scope** when the address has at most 39 characters, and otherwise only when neither the address
nor its first 39 characters denote one. -/
theorem ip6Addr_zone_iff (ifIndex : List Char → ℕ) {a : List Char} (ha : '%' ∉ a) (z : List Char) (port : ℤ) :
    ZoneOnly ifIndex a z port ↔ a.length ≤ 39 ∨ (∀ bs, ¬Text a bs) ∧ ∀ bs, ¬Text (a.take 39) bs := by
  have hcut : '%' ∉ a.take 39 := fun h => ha (mem_of_mem_take h)
  unfold ZoneOnly
  rw [uvIp6Addr_zone ha, uvIp6Addr_bare ha]
  by_cases hshort : a.length ≤ 39
  · rw [take_of_length_le hshort]
    exact iff_of_true ⟨rfl, fun _ => rfl⟩ (.inl hshort)
  rw [or_iff_right hshort]
  rcases inetPtonInto_bare ha (List.replicate 16 0) with ⟨bs, htext, hread⟩ | ⟨hno, hread⟩
  · refine iff_of_false (fun h => ?_) fun h => h.1 bs htext
    rcases inetPtonInto_bare hcut (List.replicate 16 0) with ⟨bs', htext', hread'⟩ | ⟨-, hread'⟩
    · rw [hread, hread'] at h
      exact cut_ne htext (by omega) htext' (congrArg SockaddrIn6.addr (h.2 rfl))
    · rw [hread, hread'] at h
      cases h.1
  · rcases inetPtonInto_bare hcut (List.replicate 16 0) with ⟨bs', htext', hread'⟩ | ⟨hno', hread'⟩
    · refine iff_of_false (fun h => ?_) fun h => h.2 bs' htext'
      rw [hread, hread'] at h
      cases h.1
    · rw [hread, hread']
      exact iff_of_true ⟨rfl, fun h => by cases h⟩ ⟨hno, hno'⟩

theorem ip6Addr_loopback : ZoneOnly (fun _ => 1) "::1".toList "eth0".toList 80 :=
  (ip6Addr_zone_iff (fun _ => 1) (by decide) _ _).2 (.inl (by decide))

/-- The last octet loses a digit. -/
theorem ip6Addr_cut :
    ¬∀ ifIndex a z port, '%' ∉ a → ZoneOnly ifIndex a z port := by
  intro hall
  have h := hall (fun _ => 1) "0000:0000:0000:0000:0000:0000:11.2.3.255".toList "z".toList 80 (by decide)
  revert h
  unfold ZoneOnly
  decide +kernel

end Libuv.L1.Inet
