import Mathlib.Tactic
import Bincows.Shared.Histories

set_option autoImplicit false

/-! The ranges that `block_cache_setup` takes from the block cache region. -/

namespace Bincows.BlockCache.Ranges

open List Histories

def blockCacheBegin : Nat := 0xffff900000000000

def blockCacheEnd : Nat := 0xffffd00000000000

-- The assertions of `block_cache_setup` and `vmap_device`.
structure Params where
  virtSize : Nat
  aligned : virtSize % 2 ^ 39 = 0
  positive : 0 < virtSize
  bounded : virtSize ≤ blockCacheEnd - blockCacheBegin

structure Cache extends Params where
  interface : Nat
  vaddrBase : Nat

def Cache.vaddrEnd (c : Cache) : Nat := c.vaddrBase + c.virtSize

theorem Cache.ends (c : Cache) : c.vaddrBase < c.vaddrEnd := Nat.lt_add_of_pos_right c.positive

def skip (limit vaddr : Nat) (c : Cache) : Nat :=
  if vaddr ≤ c.vaddrBase ∧ c.vaddrBase < limit then c.vaddrEnd % 2 ^ 64 else vaddr

def scan (caches : List Cache) (limit : Nat) : Nat := caches.foldl (skip limit) blockCacheBegin

def vmapDevice (caches : List Cache) (vsize : Nat) : Option Nat :=
  let vaddr := scan caches (blockCacheBegin + vsize)
  if blockCacheEnd < (vaddr + vsize) % 2 ^ 64 then none else some vaddr

inductive Action where
  | setup (interface : Nat) (params : Params)
  | free (interface : Nat)

def perform (caches : List Cache) : Action -> List Cache
  -- `NULL` is taken for an address
  | .setup interface params =>
    caches ++ [{ params with interface, vaddrBase := (vmapDevice caches params.virtSize).getD 0 }]
  | .free interface => caches.eraseP fun c => c.interface = interface

def Disjoint (c d : Cache) : Prop := c.vaddrEnd ≤ d.vaddrBase ∨ d.vaddrEnd ≤ c.vaddrBase

instance : DecidableRel Disjoint := fun _ _ => inferInstanceAs (Decidable (_ ∨ _))

@[mk_iff] structure Apart (caches : List Cache) : Prop where
  disjoint : caches.Pairwise Disjoint
  inside : ∀ c ∈ caches, blockCacheBegin ≤ c.vaddrBase ∧ c.vaddrEnd ≤ blockCacheEnd

/--
Each cache that starts less than the new size above the begin of the region leaves room for the new one behind it, in the
region and in front of each cache that starts later.
-/
def Fine (caches : List Cache) : Action -> Prop
  | .setup _ params => ∀ c ∈ caches, c.vaddrBase < blockCacheBegin + params.virtSize ->
      c.vaddrEnd + params.virtSize ≤ blockCacheEnd ∧
        ∀ d ∈ caches, blockCacheBegin + params.virtSize ≤ d.vaddrBase -> c.vaddrEnd + params.virtSize ≤ d.vaddrBase
  | .free _ => True

variable {caches : List Cache}

theorem apart_concat {new : Cache} : Apart (caches ++ [new]) ↔
    Apart caches ∧ (∀ c ∈ caches, Disjoint c new) ∧ blockCacheBegin ≤ new.vaddrBase ∧ new.vaddrEnd ≤ blockCacheEnd := by
  simp only [apart_iff, pairwise_append, pairwise_singleton, forall_mem_append, forall_mem_singleton, true_and]
  tauto

section

variable (apart : Apart caches)
include apart

-- The scan stops behind all caches that start below the limit and in front of the others.
theorem scan_spec (limit : Nat) :
    (∀ c ∈ caches, if c.vaddrBase < limit then c.vaddrEnd ≤ scan caches limit else scan caches limit ≤ c.vaddrBase) ∧
      (scan caches limit = blockCacheBegin ∨ ∃ c ∈ caches, c.vaddrBase < limit ∧ c.vaddrEnd = scan caches limit) := by
  induction caches using List.reverseRecOn with
  | nil => simp [scan]
  | append_singleton caches c ih =>
    obtain ⟨before, disjoint, low, high⟩ := apart_concat.mp apart
    obtain ⟨placed, stops⟩ := ih before
    rw [scan, foldl_concat, ← scan, forall_mem_append, forall_mem_singleton]
    generalize scan caches limit = vaddr at placed stops ⊢
    have fits : c.vaddrEnd % 2 ^ 64 = c.vaddrEnd := Nat.mod_eq_of_lt (high.trans_lt (by decide))
    unfold skip
    grind [Disjoint, Cache.ends]

theorem setup_apart_iff (interface : Nat) (params : Params) :
    Apart (perform caches (.setup interface params)) ↔ Fine caches (.setup interface params) := by
  obtain ⟨placed, stops⟩ := scan_spec apart (blockCacheBegin + params.virtSize)
  have bounded := params.bounded
  have ordered : blockCacheBegin ≤ blockCacheEnd := by decide
  simp only [perform, apart_concat, vmapDevice, Fine, Disjoint]
  generalize scan _ _ = vaddr at placed stops ⊢
  constructor
  · rintro ⟨-, disjoint, low, high⟩ c member small
    by_cases full : blockCacheEnd < (vaddr + params.virtSize) % 2 ^ 64
    · rw [if_pos full] at low
      exact absurd low (by decide)
    grind [Cache.ends, Cache.vaddrEnd]
  · intro fine
    have fits : vaddr + params.virtSize ≤ blockCacheEnd := by
      rcases stops with start | ⟨c, member, small, rfl⟩
      · omega
      · exact (fine c member small).1
    have inside : (vaddr + params.virtSize) % 2 ^ 64 = vaddr + params.virtSize :=
      Nat.mod_eq_of_lt (fits.trans_lt (by decide))
    simp only [inside, if_neg (Nat.not_lt.mpr fits), Option.getD_some]
    refine ⟨apart, ?_, ?_, fits⟩
    · grind [Cache.vaddrEnd]
    · have inside := apart.inside
      grind [Cache.ends]

theorem perform_apart_iff (action : Action) : Apart (perform caches action) ↔
    Fine caches action := by
  cases action with
  | setup interface params => exact setup_apart_iff apart interface params
  | free interface =>
    have part : perform caches (.free interface) <+ caches := eraseP_sublist
    exact iff_of_true ⟨apart.disjoint.sublist part, fun c member => apart.inside c (part.subset member)⟩ trivial

end

theorem ranges_apart_iff (actions : List Action) :
    (∀ front, front <+: actions -> Apart (after perform [] front)) ↔
      ∀ front action, front ++ [action] <+: actions -> Fine (after perform [] front) action :=
  always_iff ⟨.nil, by simp⟩ (fun _ => id) (fun _ action apart =>
    (perform_apart_iff apart action).mp) fun _ action apart => (perform_apart_iff apart action).mpr

theorem third_setup_overlaps :
    ¬ Apart (after perform [] [.setup 0 ⟨2 ^ 40, rfl, by decide, by decide⟩, .setup 1 ⟨2 ^ 39, rfl, by decide, by decide⟩,
      .setup 2 ⟨2 ^ 39, rfl, by decide, by decide⟩]) :=
  fun apart => absurd apart.disjoint (by decide +kernel)

end Bincows.BlockCache.Ranges
