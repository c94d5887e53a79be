import Stuos.Fs.Fat.Copies
import Stuos.Fs.Fat.Free

/-!
# How many clusters a write takes

A write along a chain comes past `turns` clusters, and then it still looks for the next one.
What the chain does not have of these it gets from the free clusters, the first ones first.

* `Allocates`: a result that is there exactly if enough clusters are free.
* `writeToClusterChain_allocates`: a write along a chain is such a result.
-/

namespace Stuos.Fs.Fat

open Stuos.Lib

variable {vol : Fat16Volume} {disk : Mem} {v v' : View} {l rest : List Nat} {c m : Nat}

/-- `r` comes of a call that gives the chain `l` the first `m` free clusters, if so many are
free. -/
structure Allocates (vol : Fat16Volume) (v : View) (l : List Nat) (m : Nat)
    (r : Except Halt Mem) : Prop where
  enough : m ≤ (freeClusters vol v).length → ∃ disk', r = .ok disk' ∧
    Grown vol v (view vol disk') l ((freeClusters vol v).take m)
  short : (freeClusters vol v).length < m → r = .error .outOfClusters

theorem turns_zero (vol : Fat16Volume) (offset : Nat) : turns vol offset 0 = 0 := if_pos rfl

/-- A turn takes the bytes up to the end of its cluster. -/
theorem turns_succ (hg : Geometry vol) {pos len : Nat} (pos' len' : Nat) (hlen : 0 < len)
    (hstop : len' = 0 → pos + len ≤ bytesPerCluster vol)
    (hmore : len' ≠ 0 → pos + len = bytesPerCluster vol + (pos' + len')) :
    turns vol pos len = turns vol pos' len' + 1 := by
  have hpos := hg.bytesPerCluster_pos
  rw [turns, if_neg (by omega), turns]
  split
  · rename_i hzero
    have hle := hstop hzero
    rw [Nat.div_eq_of_lt (by omega)]
  · rename_i hne
    have hsum := hmore hne
    rw [show pos + len - 1 = pos' + len' - 1 + bytesPerCluster vol by omega,
      Nat.add_div_right _ hpos]

theorem nextOrAllocate_free (hg : Geometry vol) (hc : IsChain vol (view vol disk) (c :: rest)) :
    (rest = [] → freeClusters vol (view vol disk) = [] →
      nextOrAllocate vol disk c = .error .outOfClusters) ∧
    (rest ≠ [] ∨ freeClusters vol (view vol disk) ≠ [] →
      ∃ next tl disk', nextOrAllocate vol disk c = .ok (next, disk') ∧
        rest ++ (freeClusters vol (view vol disk)).take (1 - rest.length) = next :: tl ∧
        Grown vol (view vol disk) (view vol disk') (c :: rest)
          ((freeClusters vol (view vol disk)).take (1 - rest.length))) := by
  have hread : readFat vol disk c = .ok ((view vol disk).fat c) := readFat_view hg hc.head_inRange
  rcases hc.fat_head with ⟨rfl, hend⟩ | ⟨d, tl, rfl, hd, hend⟩
  · obtain ⟨hnone, hsome⟩ := allocateCluster_free disk hg
    refine ⟨fun _ hfree => ?_, fun hfree => ?_⟩
    · rw [nextOrAllocate, hread, ok_bind, if_pos hend, hnone hfree]
      rfl
    · obtain ⟨fresh, others, hcons⟩ := List.exists_cons_of_ne_nil (hfree.resolve_left (by simp))
      obtain ⟨disk₁, halloc⟩ := hsome fresh others hcons
      have hok : ∃ disk', nextOrAllocate vol disk c = .ok (fresh, disk') := by
        rw [nextOrAllocate, hread, ok_bind, if_pos hend, halloc, ok_bind]
        simp only [writeFat_ok hc.head_inRange, ok_bind]
        exact ⟨_, rfl⟩
      obtain ⟨disk', hok⟩ := hok
      obtain ⟨more, tl, hsplit, hgrown, -, -, hlen⟩ := nextOrAllocate_ok hg hc hok
      have hmore : more = [fresh] := by
        rw [List.nil_append] at hsplit
        rw [hsplit, List.length_cons] at hlen
        obtain rfl : tl = [] := List.length_eq_zero_iff.mp (by simpa using hlen)
        exact hsplit
      refine ⟨fresh, [], disk', hok, ?_, ?_⟩
      · rw [hcons]
        rfl
      · rw [hcons]
        rw [hmore] at hgrown
        exact hgrown
  · refine ⟨fun h => absurd h (by simp), fun _ => ⟨d, tl, disk, ?_, ?_, ?_⟩⟩
    · rw [nextOrAllocate, hread, ok_bind, hend, hd]
      rfl
    · simp
    · have hzero : 1 - (d :: tl).length = 0 := by simp
      rw [hzero, List.take_zero]
      exact .refl hc

/-- **One turn**, and what comes after it. -/
theorem Allocates.turn (hg : Geometry vol) (hc : IsChain vol (view vol disk) (c :: rest)) {n : Nat}
    {after : Nat × Mem → Except Halt Mem}
    (hafter : ∀ next tl disk₁, IsChain vol (view vol disk₁) (next :: tl) →
      Allocates vol (view vol disk₁) (next :: tl) (n - tl.length) (after (next, disk₁))) :
    Allocates vol (view vol disk) (c :: rest) (n + 1 - rest.length)
      (nextOrAllocate vol disk c >>= after) := by
  obtain ⟨hnone, hsome⟩ := nextOrAllocate_free hg hc
  by_cases hmore : rest ≠ [] ∨ freeClusters vol (view vol disk) ≠ []
  · obtain ⟨next, tl, disk₁, hok, hsplit, hgrown⟩ := hsome hmore
    have hchain := hgrown.chain.tail
    rw [List.append_eq, hsplit] at hchain
    have hrest := hafter next tl disk₁ hchain
    have hfree := hgrown.freeClusters_drop hc
    have hlen := congrArg List.length hsplit
    rw [List.length_append, List.length_take, List.length_cons] at hlen
    rw [hok, ok_bind]
    refine ⟨fun henough => ?_, fun hshort => hrest.short ?_⟩
    · obtain ⟨disk', hdisk', hgrown'⟩ := hrest.enough (by
        rw [hfree, List.length_drop]
        omega)
      refine ⟨disk', hdisk', ?_⟩
      have hall := hgrown.cons hsplit (by simp) hgrown'
      have htake : (freeClusters vol (view vol disk)).take (1 - rest.length) ++
          ((freeClusters vol (view vol disk)).drop (1 - rest.length)).take (n - tl.length) =
            (freeClusters vol (view vol disk)).take (n + 1 - rest.length) := by
        have hsum : n + 1 - rest.length = 1 - rest.length + (n - tl.length) ∨
            n + 1 - rest.length = 0 ∧ 1 - rest.length = 0 ∧ n - tl.length = 0 := by
          omega
        rcases hsum with hsum | ⟨h0, h1, h2⟩
        · rw [hsum, List.take_add]
        · rw [h0, h1, h2]
          simp
      rw [← htake, ← hfree]
      exact hall
    · rw [hfree, List.length_drop]
      omega
  · obtain ⟨hnil, hfree⟩ := not_or.mp hmore
    rw [not_not] at hnil hfree
    subst hnil
    rw [hnone rfl hfree, error_bind]
    refine ⟨fun henough => ?_, fun _ => rfl⟩
    rw [hfree] at henough
    simp at henough

theorem Allocates.refl (hc : IsChain vol (view vol disk) l) {m : Nat} (hm : m = 0) :
    Allocates vol (view vol disk) l m (.ok disk) := by
  subst hm
  refine ⟨fun _ => ⟨disk, rfl, ?_⟩, fun h => absurd h (Nat.not_lt_zero _)⟩
  rw [List.take_zero]
  exact .refl hc

theorem Allocates.congr {r : Except Halt Mem} (heq : v'.fat = v.fat) (h : Allocates vol v' l m r) :
    Allocates vol v l m r := by
  have hfree : freeClusters vol v' = freeClusters vol v := freeClusters_congr heq
  refine ⟨fun henough => ?_, fun hshort => h.short (by rw [hfree]; exact hshort)⟩
  obtain ⟨disk', hok, hgrown⟩ := h.enough (by rw [hfree]; exact henough)
  refine ⟨disk', hok, ?_⟩
  rw [hfree] at hgrown
  exact ⟨hgrown.chain, fun c hc => heq ▸ hgrown.fresh c hc, fun c h1 h2 => heq ▸ hgrown.fat c h1 h2⟩

/-- **The loop takes a cluster for every turn** that its chain has none for. -/
theorem writeClusters_allocates (hg : Geometry vol) {required start : Nat}
    (hstart : start < bytesPerCluster vol) (fuel : Nat) :
    ∀ (i c : Nat) (rest : List Nat) (input : List UInt8) (disk : Mem),
    IsChain vol (view vol disk) (c :: rest) → required - i + input.length ≤ fuel →
    Allocates vol (view vol disk) (c :: rest)
      (turns vol (position (bytesPerCluster vol) required start i) input.length - rest.length)
      (writeClusters vol required start fuel i c input disk) := by
  induction fuel with
  | zero =>
    intro i c rest input disk hc hfuel
    obtain rfl : input = [] := List.length_eq_zero_iff.mp (by omega)
    exact .refl hc (by rw [List.length_nil, turns_zero, Nat.zero_sub])
  | succ fuel ih =>
    intro i c rest input disk hc hfuel
    cases input with
    | nil => exact .refl hc (by rw [List.length_nil, turns_zero, Nat.zero_sub])
    | cons byte input =>
      rw [List.length_cons] at hfuel ⊢
      rw [writeClusters]
      by_cases hreq : required ≤ i
      · rw [if_pos hreq, position_of_le hreq]
        have hs := startInCluster_lt hstart required i
        have hlen := chunk_le hstart required i (byte :: input)
        have hview := view_writeCluster disk hg hc.head_inRange hlen
        have hfat := congrArg View.fat hview
        have hrest : ((byte :: input).drop (bytesPerCluster vol -
            startInCluster required start i)).length =
              input.length + 1 - (bytesPerCluster vol - startInCluster required start i) := by
          rw [List.length_drop, List.length_cons]
        rw [turns_succ hg 0 (input.length + 1 - (bytesPerCluster vol -
          startInCluster required start i)) (by omega) (by omega) (by omega)]
        refine Allocates.congr (hfat.trans (View.setData_fat _ _ _)) ?_
        refine Allocates.turn hg (by rw [hview]; exact hc.setData _ _) fun next tl disk₁ hchain => ?_
        have hnext := ih (i + 1) next tl ((byte :: input).drop (bytesPerCluster vol -
          startInCluster required start i)) disk₁ hchain (by omega)
        rwa [position, if_neg (by omega), hrest] at hnext
      · rw [if_neg hreq]
        obtain ⟨hle, hpos⟩ := position_of_lt (bytesPerCluster vol) start
          (show i < required by omega)
        rw [turns_succ hg (position (bytesPerCluster vol) required start (i + 1)) (input.length + 1)
          (by omega) (by omega) (by omega)]
        exact Allocates.turn hg hc fun next tl disk₁ hchain =>
          ih (i + 1) next tl (byte :: input) disk₁ hchain (by rw [List.length_cons]; omega)

/-- **A write along a chain** takes the clusters it comes past and the one behind. -/
theorem writeToClusterChain_allocates (hg : Geometry vol)
    (hc : IsChain vol (view vol disk) (c :: rest)) (off : Nat) (input : List UInt8) :
    Allocates vol (view vol disk) (c :: rest) (turns vol off input.length - rest.length)
      (writeToClusterChain vol disk c off input) := by
  have hpos := hg.bytesPerCluster_pos
  have hall := writeClusters_allocates hg (Nat.mod_lt off hpos)
    (off / bytesPerCluster vol + input.length) 0 c rest input disk hc (by rw [Nat.sub_zero])
  rw [position_zero] at hall
  rw [writeToClusterChain, ensure_of (by omega), ok_bind, ensure_of hc.head_inRange.valid, ok_bind]
  exact hall

end Stuos.Fs.Fat
