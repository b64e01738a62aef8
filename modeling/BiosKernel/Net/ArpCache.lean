import BiosKernel.Lib.Runs
import BiosKernel.Libc.CString
import BiosKernel.Net.Encapsulate

namespace BiosKernel
open Runs
set_option autoImplicit true

def arpCacheSize : Nat := 16

/-- `ARP_CACHE_TTL`, in milliseconds. -/
def arpCacheTtl : UInt64 := 30000

structure ArpEntry where
  ip : Ipv4Addr
  mac : MacAddr
  timestamp : UInt64
deriving DecidableEq

namespace ArpEntry

/-- What `memset` leaves. -/
def zero : ArpEntry := ⟨.replicate 4 0, .replicate 6 0, 0⟩

def hasIp (e : ArpEntry) (ip : Ipv4Addr) : Bool := memcmp e.ip.toList ip.toList 4 = 0

def isFree (e : ArpEntry) : Bool := e.ip[0] = 0

def expired (e : ArpEntry) (now : UInt64) : Bool :=
  e.ip[0] ≠ 0 ∧ now - e.timestamp > arpCacheTtl

/-- The loop of `cleanup_arp_cache`. -/
def cleanup (now : UInt64) (es : List ArpEntry) : List ArpEntry :=
  es.map fun e => if e.expired now then zero else e

end ArpEntry

/-- The loop of `cache_arp_entry` over the entries from some index on. `none` is the end of the
loop, where the cache is reported to be full. -/
def storeEntry (new : ArpEntry) : List ArpEntry → Option (List ArpEntry)
  | [] => none
  | e :: es =>
    if e.hasIp new.ip || e.isFree then some (new :: es) else (storeEntry new es).map (e :: ·)

theorem length_storeEntry (h : storeEntry new es = some es') : es'.length = es.length := by
  induction es generalizing es' with
  | nil => cases h
  | cons e es ih =>
    rw [storeEntry] at h
    split at h
    · cases h
      rfl
    · obtain ⟨es'', hes, rfl⟩ := Option.map_eq_some_iff.mp h
      rw [List.length_cons, ih hes, List.length_cons]

structure ArpCache where
  entries : List ArpEntry
  size : entries.length = arpCacheSize

namespace ArpCache

def zeroed : ArpCache := ⟨List.replicate arpCacheSize .zero, List.length_replicate⟩

/-- The cache behind the call, or `none` if it is full. -/
def cacheArpEntry (c : ArpCache) (ip : Ipv4Addr) (mac : MacAddr) (now : UInt64) : Option ArpCache :=
  match h : storeEntry ⟨ip, mac, now⟩ c.entries with
  | none => none
  | some es => some ⟨es, (length_storeEntry h).trans c.size⟩

def clearArpCache (c : ArpCache) : ArpCache :=
  ⟨c.entries.map fun _ => .zero, (List.length_map _).trans c.size⟩

def cleanupArpCache (c : ArpCache) (now : UInt64) : ArpCache :=
  ⟨ArpEntry.cleanup now c.entries, (List.length_map _).trans c.size⟩

def findMacInCache (c : ArpCache) (ip : Ipv4Addr) : Option MacAddr :=
  (c.entries.find? (·.hasIp ip)).map (·.mac)

end ArpCache

/-- A call, with the value that `time()` returns in it. -/
inductive ArpOp where
  | cache (ip : Ipv4Addr) (mac : MacAddr) (now : UInt64)
  | cleanup (now : UInt64)
  | clear
  | find (ip : Ipv4Addr)

def ArpOp.time : ArpOp → Option UInt64
  | .cache _ _ now => some now
  | .cleanup now => some now
  | .clear => none
  | .find _ => none

/-- What the cache is for: the binding that was stored last for each address, with the time of the
call that stored it. -/
abbrev Bindings := Ipv4Addr → Option (MacAddr × UInt64)

namespace Bindings

def bind (b : Bindings) (ip : Ipv4Addr) (mac : MacAddr) (now : UInt64) : Bindings :=
  Function.update b ip (some (mac, now))

def expire (b : Bindings) (now : UInt64) : Bindings :=
  fun ip => (b ip).filter fun x => ¬ now - x.2 > arpCacheTtl

end Bindings

/-- The cache and, next to it, the bindings that a run should have left. -/
structure ArpRun where
  cache : ArpCache
  latest : Bindings

namespace ArpRun

def start : ArpRun := ⟨.zeroed, fun _ => none⟩

def step (s : ArpRun) : ArpOp → Option ArpRun
  | .cache ip mac now =>
    match s.cache.cacheArpEntry ip mac now with
    | none => some s
    | some c => some ⟨c, s.latest.bind ip mac now⟩
  | .cleanup now => some ⟨s.cache.cleanupArpCache now, s.latest.expire now⟩
  | .clear => some ⟨s.cache.clearArpCache, fun _ => none⟩
  | .find _ => some s

end ArpRun

namespace ArpEntry

variable {ip : Ipv4Addr} {e new : ArpEntry} {es es' : List ArpEntry}

theorem hasIp_iff : e.hasIp ip = true ↔ e.ip = ip := by
  rw [hasIp, decide_eq_true_iff, memcmp_eq_zero_iff e.ip.length_toList ip.length_toList,
    Vector.toList_inj]

/-- The first entry of an address, as a binding. -/
def lookup (es : List ArpEntry) (ip : Ipv4Addr) : Option (MacAddr × UInt64) :=
  (es.find? (·.hasIp ip)).map fun e => (e.mac, e.timestamp)

theorem lookup_cons_of_eq (h : e.ip = ip) : lookup (e :: es) ip = some (e.mac, e.timestamp) := by
  simp only [lookup, List.find?_cons, hasIp_iff.mpr h, Option.map_some]

theorem lookup_cons_of_ne (h : e.ip ≠ ip) : lookup (e :: es) ip = lookup es ip := by
  simp only [lookup, List.find?_cons, Bool.eq_false_iff.mpr (mt hasIp_iff.mp h)]

/-- Of two entries for one address the first is not the older one. -/
def NewestFirst : List ArpEntry → Prop :=
  List.Pairwise fun a b => a.ip = b.ip → a.ip[0] ≠ 0 → b.timestamp ≤ a.timestamp

theorem lookup_storeEntry (h : storeEntry new es = some es') (hip : ip[0] ≠ 0) :
    lookup es' ip = if ip = new.ip then some (new.mac, new.timestamp) else lookup es ip := by
  induction es generalizing es' with
  | nil => cases h
  | cons e es ih =>
    rw [storeEntry] at h
    split at h
    · rename_i htaken
      cases h
      by_cases hnew : ip = new.ip
      · rw [if_pos hnew, lookup_cons_of_eq hnew.symm]
      · -- the entry that is given up is free or has the new address
        have hne : e.ip ≠ ip := by
          rintro rfl
          rcases Bool.or_eq_true_iff.mp htaken with hold | hfree
          · exact hnew (hasIp_iff.mp hold)
          · exact hip (of_decide_eq_true hfree)
        rw [if_neg hnew, lookup_cons_of_ne (Ne.symm hnew), lookup_cons_of_ne hne]
    · rename_i hkept
      obtain ⟨es'', hes, rfl⟩ := Option.map_eq_some_iff.mp h
      by_cases he : e.ip = ip
      · have hne : ip ≠ new.ip := by
          rintro rfl
          exact hkept (Bool.or_eq_true_iff.mpr (.inl (hasIp_iff.mpr he)))
        rw [if_neg hne, lookup_cons_of_eq he, lookup_cons_of_eq he]
      · rw [lookup_cons_of_ne he, lookup_cons_of_ne he, ih hes]

theorem mem_storeEntry (h : storeEntry new es = some es') (he : e ∈ es') : e = new ∨ e ∈ es := by
  induction es generalizing es' with
  | nil => cases h
  | cons a es ih =>
    rw [storeEntry] at h
    split at h
    · cases h
      exact (List.mem_cons.mp he).imp_right (List.mem_cons_of_mem a)
    · obtain ⟨es'', hes, rfl⟩ := Option.map_eq_some_iff.mp h
      rcases List.mem_cons.mp he with rfl | he
      · exact .inr List.mem_cons_self
      · exact (ih hes he).imp_right (List.mem_cons_of_mem a)

theorem NewestFirst.storeEntry (hn : NewestFirst es) (hold : ∀ e ∈ es, e.timestamp ≤ new.timestamp)
    (h : BiosKernel.storeEntry new es = some es') : NewestFirst es' := by
  induction es generalizing es' with
  | nil => cases h
  | cons e es ih =>
    obtain ⟨hn1, hn⟩ := List.pairwise_cons.mp hn
    obtain ⟨-, hold⟩ := List.forall_mem_cons.mp hold
    rw [BiosKernel.storeEntry] at h
    split at h
    · cases h
      exact List.pairwise_cons.mpr ⟨fun b hb _ _ => hold b hb, hn⟩
    · rename_i hkept
      obtain ⟨es'', hes, rfl⟩ := Option.map_eq_some_iff.mp h
      refine List.pairwise_cons.mpr ⟨?_, ih hn hold hes⟩
      intro b hb hip h0
      rcases mem_storeEntry hes hb with rfl | hb
      · exact absurd (Bool.or_eq_true_iff.mpr (.inl (hasIp_iff.mpr hip))) hkept
      · exact hn1 b hb hip h0

theorem expired_of_le {t t' now : UInt64} (ht : t' ≤ t) (hnow : t ≤ now)
    (h : now - t > arpCacheTtl) : now - t' > arpCacheTtl := by
  rw [gt_iff_lt, UInt64.lt_iff_toNat_lt] at *
  rw [UInt64.le_iff_toNat_le] at ht
  rw [UInt64.toNat_sub_of_le _ _ hnow] at h
  rw [UInt64.toNat_sub_of_le _ _ (UInt64.le_trans (UInt64.le_iff_toNat_le.mpr ht) hnow)]
  omega

theorem expired_iff : e.expired now = true ↔ e.ip[0] ≠ 0 ∧ now - e.timestamp > arpCacheTtl :=
  decide_eq_true_iff

theorem cleanup_cons : cleanup now (e :: es) =
    (if e.expired now then zero else e) :: cleanup now es := rfl

theorem zero_ip_ne (hip : ip[0] ≠ 0) : zero.ip ≠ ip := by
  rintro rfl
  exact hip rfl

theorem lookup_cleanup_of_old (hip : ip[0] ≠ 0)
    (h : ∀ e ∈ es, e.ip = ip → now - e.timestamp > arpCacheTtl) :
    lookup (cleanup now es) ip = none := by
  induction es with
  | nil => rfl
  | cons e es ih =>
    obtain ⟨he, hes⟩ := List.forall_mem_cons.mp h
    rw [cleanup_cons, lookup_cons_of_ne, ih hes]
    split
    · exact zero_ip_ne hip
    · rename_i hkept
      intro heq
      exact hkept (expired_iff.mpr ⟨heq ▸ hip, he heq⟩)

theorem lookup_cleanup (hn : NewestFirst es) (hpast : ∀ e ∈ es, e.timestamp ≤ now)
    (hip : ip[0] ≠ 0) : lookup (cleanup now es) ip =
      (lookup es ip).filter fun x => ¬ now - x.2 > arpCacheTtl := by
  induction es with
  | nil => rfl
  | cons e es ih =>
    obtain ⟨hn1, hn⟩ := List.pairwise_cons.mp hn
    obtain ⟨he, hpast⟩ := List.forall_mem_cons.mp hpast
    rw [cleanup_cons]
    by_cases heq : e.ip = ip
    · subst heq
      rw [lookup_cons_of_eq rfl]
      by_cases hold : now - e.timestamp > arpCacheTtl
      · -- the other entries of the address lie behind and are not newer
        rw [if_pos (expired_iff.mpr ⟨hip, hold⟩), lookup_cons_of_ne (zero_ip_ne hip),
          lookup_cleanup_of_old hip, Option.filter_some_neg]
        · simpa using hold
        · intro b hb hb'
          exact expired_of_le (hn1 b hb hb'.symm hip) he hold
      · rw [if_neg (fun h => hold (expired_iff.mp h).2), lookup_cons_of_eq rfl,
          Option.filter_some_pos]
        simpa using hold
    · have hne : (if e.expired now then zero else e).ip ≠ ip := by
        split
        · exact zero_ip_ne hip
        · exact heq
      rw [lookup_cons_of_ne hne, lookup_cons_of_ne heq, ih hn hpast]

theorem NewestFirst.cleanup (hn : NewestFirst es) (now : UInt64) :
    NewestFirst (cleanup now es) := by
  refine List.Pairwise.map _ ?_ hn
  intro a b hab hip h0
  by_cases ha : a.expired now
  · rw [if_pos ha] at h0
    exact absurd rfl h0
  rw [if_neg ha] at hip h0 ⊢
  by_cases hb : b.expired now
  · rw [if_pos hb] at hip
    exact absurd hip.symm (zero_ip_ne h0)
  · rw [if_neg hb] at hip ⊢
    exact hab hip h0

theorem cleanup_timestamp_le (h : ∀ e ∈ es, e.timestamp ≤ clock) :
    ∀ e ∈ cleanup now es, e.timestamp ≤ clock := by
  refine List.forall_mem_map.mpr ?_
  intro e he
  split
  · exact UInt64.zero_le
  · exact h e he

theorem lookup_of_zero (h : ∀ e ∈ es, e = zero) (hip : ip[0] ≠ 0) : lookup es ip = none := by
  rw [lookup, List.find?_eq_none.mpr]
  · rfl
  · intro e he
    rw [h e he, hasIp_iff]
    exact zero_ip_ne hip

end ArpEntry

theorem ArpCache.findMacInCache_eq (c : ArpCache) (ip : Ipv4Addr) :
    c.findMacInCache ip = (ArpEntry.lookup c.entries ip).map (·.1) := by
  rw [findMacInCache, ArpEntry.lookup, Option.map_map]
  rfl

theorem ArpCache.cacheArpEntry_eq_some {c c' : ArpCache}
    (h : c.cacheArpEntry ip mac now = some c') :
    storeEntry ⟨ip, mac, now⟩ c.entries = some c'.entries := by
  rw [cacheArpEntry] at h
  split at h
  · cases h
  · rename_i hes
    cases h
    exact hes

namespace ArpRun
open ArpEntry (NewestFirst lookup)

/-- The bindings are those of the first entries, and no entry is newer than `clock`. -/
structure Follows (s : ArpRun) (clock : UInt64) : Prop where
  newest : NewestFirst s.cache.entries
  past : ∀ e ∈ s.cache.entries, e.timestamp ≤ clock
  latest : ∀ ip : Ipv4Addr, ip[0] ≠ 0 → s.latest ip = lookup s.cache.entries ip

theorem Follows.mono {s : ArpRun} (h : s.Follows clock) (hle : clock ≤ now) : s.Follows now :=
  ⟨h.newest, fun e he => UInt64.le_trans (h.past e he) hle, h.latest⟩

theorem follows_of_zero {c : ArpCache} (h : ∀ e ∈ c.entries, e = .zero) (clock : UInt64) :
    Follows ⟨c, fun _ => none⟩ clock := by
  refine ⟨List.pairwise_of_forall_mem_list ?_, ?_, ?_⟩
  · intro a ha b _ _ h0
    rw [h a ha] at h0
    exact absurd rfl h0
  · intro e he
    rw [h e he]
    exact UInt64.zero_le
  · intro ip hip
    exact (ArpEntry.lookup_of_zero h hip).symm

theorem start_follows (clock : UInt64) : start.Follows clock :=
  follows_of_zero (fun _ he => List.eq_of_mem_replicate he) clock

theorem Follows.cache {s : ArpRun} (h : s.Follows now) (ip : Ipv4Addr) (mac : MacAddr) :
    ∃ s', s.step (.cache ip mac now) = some s' ∧ s'.Follows now := by
  simp only [step]
  split
  · exact ⟨s, rfl, h⟩
  · rename_i c hc
    have hstore := ArpCache.cacheArpEntry_eq_some hc
    refine ⟨_, rfl, h.newest.storeEntry h.past hstore, ?_, ?_⟩
    · intro e he
      rcases ArpEntry.mem_storeEntry hstore he with rfl | he
      · exact UInt64.le_refl now
      · exact h.past e he
    · intro ip' hip
      rw [ArpEntry.lookup_storeEntry hstore hip, ← h.latest ip' hip]
      exact Function.update_apply ..

theorem Follows.cleanup {s : ArpRun} (h : s.Follows now) :
    ∃ s', s.step (.cleanup now) = some s' ∧ s'.Follows now := by
  refine ⟨_, rfl, h.newest.cleanup now, ArpEntry.cleanup_timestamp_le h.past, ?_⟩
  intro ip hip
  exact (congrArg _ (h.latest ip hip)).trans (ArpEntry.lookup_cleanup h.newest h.past hip).symm

theorem Follows.clear {s : ArpRun} (clock : UInt64) :
    ∃ s', s.step .clear = some s' ∧ s'.Follows clock := by
  refine ⟨_, rfl, follows_of_zero ?_ clock⟩
  intro e he
  obtain ⟨_, -, rfl⟩ := List.mem_map.mp he
  rfl

theorem Follows.step {s : ArpRun} (h : s.Follows clock) (op : ArpOp)
    (ht : ∀ now, op.time = some now → clock ≤ now) :
    ∃ s', s.step op = some s' ∧ s'.Follows (op.time.getD clock) := by
  cases op with
  | cache ip mac now => exact (h.mono (ht now rfl)).cache ip mac
  | cleanup now => exact (h.mono (ht now rfl)).cleanup
  | clear => exact Follows.clear clock
  | find ip => exact ⟨s, rfl, h⟩

theorem Follows.run {s : ArpRun} (h : s.Follows clock)
    (ht : (clock :: ops.filterMap ArpOp.time).Pairwise (· ≤ ·)) :
    ∃ s' clock', Runs.run ArpRun.step s ops = some s' ∧ s'.Follows clock' := by
  induction ops generalizing s clock with
  | nil => exact ⟨s, clock, rfl, h⟩
  | cons op ops ih =>
    obtain ⟨hle, ht⟩ := List.pairwise_cons.mp ht
    obtain ⟨s', hs', h'⟩ := h.step op fun now hnow =>
      hle now (List.mem_filterMap.mpr ⟨op, List.mem_cons_self, hnow⟩)
    have ht' : (op.time.getD clock :: ops.filterMap ArpOp.time).Pairwise (· ≤ ·) := by
      cases hop : op.time with
      | none =>
        rw [List.filterMap_cons_none hop] at hle ht
        exact List.pairwise_cons.mpr ⟨hle, ht⟩
      | some now =>
        rw [List.filterMap_cons_some hop] at ht
        exact ht
    obtain ⟨u, now, hu, hf⟩ := ih h' ht'
    refine ⟨u, now, ?_, hf⟩
    rw [Runs.run, hs']
    exact hu

/-- After every run in which time does not go back, the MAC found for an address is that of the
binding stored last, as far as it has not been cleared or expired. -/
theorem findMacInCache_eq_latest (ops : List ArpOp)
    (h : (ops.filterMap ArpOp.time).Pairwise (· ≤ ·)) :
    ∃ s, Runs.run step start ops = some s ∧
      ∀ ip : Ipv4Addr, ip[0] ≠ 0 → s.cache.findMacInCache ip = (s.latest ip).map (·.1) := by
  have hclock : (0 :: ops.filterMap ArpOp.time).Pairwise (· ≤ ·) :=
    List.pairwise_cons.mpr ⟨fun _ _ => UInt64.zero_le, h⟩
  obtain ⟨s, _, hs, hf⟩ := (start_follows 0).run hclock
  refine ⟨s, hs, ?_⟩
  intro ip hip
  rw [ArpCache.findMacInCache_eq, hf.latest ip hip]

/-- The address in the second entry is stored again when the first one has expired: the new binding
is found before the old one. -/
theorem findMacInCache_behind_hole : ∃ s, Runs.run step start
    [.cache #v[10, 0, 0, 1] #v[1, 0, 0, 0, 0, 0] 0,
      .cache #v[10, 0, 0, 2] #v[2, 0, 0, 0, 0, 0] 20000, .cleanup 40000,
      .cache #v[10, 0, 0, 2] #v[3, 0, 0, 0, 0, 0] 40000] = some s ∧
    ∀ ip : Ipv4Addr, ip[0] ≠ 0 → s.cache.findMacInCache ip = (s.latest ip).map (·.1) :=
  findMacInCache_eq_latest _ (by decide)

end ArpRun

end BiosKernel
