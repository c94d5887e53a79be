import Mathlib.Data.List.Nodup
import Mathlib.Data.List.Perm.Subperm
import Stuos.Fs.Fat.View
import Stuos.Lib.Chain

/-!
# Cluster chains

A chain is a linked list of the table whose clusters are all in range (`IsChain`);
`View.chain` walks it.  The bytes of a chain are the blocks of its clusters, joined.

* `Written`: writing along a chain appends fresh clusters as needed, replaces bytes of
  the chain and leaves all other clusters alone.
* `writeToClusterChain_ok`, `writeToClusterChain_error`: that is what
  `write_to_cluster_chain` does, unless it runs out of clusters.
* `readFromClusterChain_ok`: a read within the chain returns its bytes.
-/

namespace Stuos.Fs.Fat

open Stuos.Lib

/-- The cluster after `c`, unless `c` is the last. -/
def View.next (v : View) (c : Nat) : Option Nat :=
  if isEndOfLlNum (v.fat c) then none else some (v.fat c)

/-- The clusters from `c` on, at most `fuel` of them. -/
def View.chainFrom (v : View) : Nat → Nat → List Nat
  | 0, _ => []
  | fuel + 1, c => if isInvalidClusterNum c then [] else c :: chainFrom v fuel (v.fat c)

/-- The chain of a file or directory with first cluster `c`; empty if there is none.  A
chain without repetition has at most that many clusters. -/
def View.chain (v : View) (c : Nat) : List Nat := v.chainFrom 0xFFF7 c

variable {vol : Fat16Volume} {v v₁ v₂ v' : View} {l ext : List Nat} {c : Nat}

/-- `l` is a chain: it ends in an end marker and stays in the table. -/
structure IsChain (vol : Fat16Volume) (v : View) (l : List Nat) : Prop where
  inRange : ∀ c ∈ l, InRange vol c
  linked : Linked v.next l

namespace IsChain

theorem nil (vol : Fat16Volume) (v : View) : IsChain vol v [] := ⟨by simp, trivial⟩

theorem tail (h : IsChain vol v (c :: l)) : IsChain vol v l :=
  ⟨fun d hd => h.inRange d (by simp [hd]), h.linked.2⟩

theorem nodup (h : IsChain vol v l) : l.Nodup := h.linked.nodup

theorem head_inRange (h : IsChain vol v (c :: l)) : InRange vol c := h.inRange c (by simp)

theorem fat_head (h : IsChain vol v (c :: l)) :
    (l = [] ∧ isEndOfLlNum (v.fat c) = true) ∨
      ∃ d rest, l = d :: rest ∧ v.fat c = d ∧ isEndOfLlNum (v.fat c) = false := by
  have hnext := h.linked.1
  rw [View.next] at hnext
  cases l with
  | nil =>
    left
    refine ⟨rfl, ?_⟩
    by_contra hend
    rw [if_neg hend] at hnext
    simp at hnext
  | cons d rest =>
    right
    by_cases hend : isEndOfLlNum (v.fat c) = true
    · rw [if_pos hend] at hnext
      simp at hnext
    · rw [if_neg hend, List.head?_cons, Option.some.injEq] at hnext
      exact ⟨d, rest, rfl, hnext, by simpa using hend⟩

/-- **No cluster of a chain is free.** -/
theorem not_free (h : IsChain vol v l) : ∀ c ∈ l, isFreeClusterNum (v.fat c) = false := by
  induction l with
  | nil => simp
  | cons d l ih =>
    intro c hc
    rcases List.mem_cons.mp hc with rfl | hmem
    · rcases h.fat_head with ⟨_, hend⟩ | ⟨d, rest, rfl, hd, _⟩
      · simp only [isEndOfLlNum, decide_eq_true_eq] at hend
        simp only [isFreeClusterNum, decide_eq_false_iff_not]
        omega
      · have := (h.inRange d (by simp)).1
        simp only [isFreeClusterNum, decide_eq_false_iff_not]
        omega
    · exact ih h.tail c hmem

theorem congr (h : IsChain vol v l) (heq : ∀ c ∈ l, v'.fat c = v.fat c) : IsChain vol v' l := by
  refine ⟨h.inRange, h.linked.congr ?_⟩
  intro c hc
  rw [View.next, View.next, heq c hc]

theorem length_le (h : IsChain vol v l) : l.length ≤ 0xFFF7 := by
  have hsub : l ⊆ List.range 0xFFF7 := by
    intro c hc
    exact List.mem_range.mpr (h.inRange c hc).lt
  have hle := (List.subperm_of_subset h.nodup hsub).length_le
  rwa [List.length_range] at hle

theorem chainFrom_eq (h : IsChain vol v (c :: l)) (n : Nat) (hn : l.length < n) :
    v.chainFrom n c = c :: l := by
  induction n generalizing c l with
  | zero => omega
  | succ n ih =>
    rw [View.chainFrom, if_neg (by simp [h.head_inRange.valid])]
    rcases h.fat_head with ⟨rfl, hend⟩ | ⟨d, rest, rfl, hd, _⟩
    · have hinv : isInvalidClusterNum (v.fat c) = true := by
        simp only [isEndOfLlNum, decide_eq_true_eq] at hend
        simp only [isInvalidClusterNum, Bool.or_eq_true, decide_eq_true_eq]
        omega
      cases n with
      | zero => rfl
      | succ n => rw [View.chainFrom, if_pos hinv]
    · rw [hd, ih h.tail (by simpa using hn)]

/-- **The walk finds the chain.** -/
theorem chain_eq (h : IsChain vol v (c :: l)) : v.chain c = c :: l := by
  have hlen := h.length_le
  rw [List.length_cons] at hlen
  exact h.chainFrom_eq _ (by omega)

end IsChain

theorem chain_of_invalid (v : View) (h : isInvalidClusterNum c = true) : v.chain c = [] := by
  rw [View.chain, View.chainFrom, if_pos h]

theorem chain_eq_cons (v : View) (h : isInvalidClusterNum c = false) :
    v.chain c = c :: (v.chain c).tail := by
  rw [View.chain, View.chainFrom, if_neg (by simp [h])]
  rfl

theorem chain_congr (heq : v'.fat = v.fat) (c : Nat) : v'.chain c = v.chain c := by
  have hfrom : ∀ n c, v'.chainFrom n c = v.chainFrom n c := by
    intro n
    induction n with
    | zero => exact fun _ => rfl
    | succ n ih =>
      intro c
      rw [View.chainFrom, View.chainFrom, heq, ih]
  exact hfrom _ c

/-! ### Appending clusters -/

/-- The chain `l` has got the clusters `ext`, which were free, at its end. -/
structure Grown (vol : Fat16Volume) (v v' : View) (l ext : List Nat) : Prop where
  chain : IsChain vol v' (l ++ ext)
  fresh : ∀ c ∈ ext, isFreeClusterNum (v.fat c) = true
  fat : ∀ c, c ∉ l → c ∉ ext → v'.fat c = v.fat c

theorem Grown.refl (h : IsChain vol v l) : Grown vol v v l [] where
  chain := by rwa [List.append_nil]
  fresh := by simp
  fat _ _ _ := rfl

theorem Grown.not_mem (h : Grown vol v v' l ext) {k : List Nat} (hk : IsChain vol v k) {c : Nat}
    (hc : c ∈ ext) : c ∉ k := by
  intro hmem
  have h1 := h.fresh c hc
  rw [hk.not_free c hmem] at h1
  exact absurd h1 (by decide)

theorem Grown.other (h : Grown vol v v' l ext) {k : List Nat} (hk : IsChain vol v k)
    (hdisj : ∀ c ∈ k, c ∉ l) : IsChain vol v' k := by
  apply hk.congr
  intro c hc
  exact h.fat c (hdisj c hc) (fun hmem => h.not_mem hk hmem hc)

theorem Grown.cons {rest tl more : List Nat} (h₁ : Grown vol v v₁ (c :: rest) more)
    (hsplit : rest ++ more = tl) (hne : tl ≠ []) (h₂ : Grown vol v₁ v' tl ext) :
    Grown vol v v' (c :: rest) (more ++ ext) := by
  subst hsplit
  have hchain := h₁.chain
  rw [List.cons_append] at hchain
  have hc : c ∉ rest ++ more := (List.nodup_cons.mp hchain.nodup).1
  have hcext : c ∉ ext := fun hmem => h₂.not_mem hchain hmem (by simp)
  refine ⟨?_, ?_, ?_⟩
  · rw [List.cons_append, ← List.append_assoc]
    refine ⟨?_, ?_, h₂.chain.linked⟩
    · intro d hd
      rcases List.mem_cons.mp hd with rfl | hd
      · exact hchain.head_inRange
      · exact h₂.chain.inRange d hd
    · have hnext := hchain.linked.1
      rw [View.next, ← h₂.fat c hc hcext] at hnext
      rw [View.next, hnext, List.head?_append_of_ne_nil _ hne]
  · intro d hd
    rcases List.mem_append.mp hd with hd | hd
    · exact h₁.fresh d hd
    · have hnot : d ∉ c :: (rest ++ more) := h₂.not_mem hchain hd
      have hfat := h₁.fat d (by simp at hnot ⊢; tauto) (by simp at hnot; tauto)
      rw [← hfat]
      exact h₂.fresh d hd
  · intro d hd hd'
    rw [List.mem_append] at hd'
    rw [h₂.fat d (by simp at hd ⊢; tauto) (by tauto), h₁.fat d hd (by tauto)]

theorem nextOrAllocate_ok (hg : Geometry vol) {disk disk' : Mem} {next : Nat}
    (hc : IsChain vol (view vol disk) (c :: l))
    (h : nextOrAllocate vol disk c = .ok (next, disk')) :
    ∃ more tl, l ++ more = next :: tl ∧ Grown vol (view vol disk) (view vol disk') (c :: l) more ∧
      (view vol disk').data = (view vol disk).data ∧
      (view vol disk').root = (view vol disk).root ∧ more.length = 1 - l.length := by
  rw [nextOrAllocate, readFat_view hg hc.head_inRange, ok_bind] at h
  rcases hc.fat_head with ⟨rfl, hend⟩ | ⟨d, rest, rfl, hd, hend⟩
  · -- the last cluster: a fresh one is appended
    rw [if_pos hend, bind_eq_ok] at h
    obtain ⟨⟨fresh, disk₁⟩, halloc, h⟩ := h
    have ha := allocateCluster_ok hg halloc
    simp only [writeFat_ok hc.head_inRange, ok_bind, pure_eq_ok, Except.ok.injEq,
      Prod.mk.injEq] at h
    obtain ⟨rfl, rfl⟩ := h
    have hlt : fresh < 2 ^ 16 := by
      have := ha.inRange.lt
      omega
    have hne : c ≠ fresh := by
      intro he
      have h1 := ha.free
      rw [← he, hc.not_free c (by simp)] at h1
      exact absurd h1 (by decide)
    rw [view_writeFat hg hc.head_inRange hlt, ha.eq]
    refine ⟨[fresh], [], rfl, ⟨?_, ?_, ?_⟩, rfl, rfl, rfl⟩
    · refine ⟨?_, ?_, ?_, trivial⟩
      · intro d hd
        simp only [List.cons_append, List.nil_append, List.mem_cons, List.not_mem_nil,
          or_false] at hd
        rcases hd with rfl | rfl
        · exact hc.head_inRange
        · exact ha.inRange
      · have hfr := ha.inRange.lt
        rw [View.next, View.setFat_fat_self, if_neg]
        · rfl
        · simp only [isEndOfLlNum, decide_eq_true_eq]
          omega
      · rw [View.next, View.setFat_fat_of_ne _ _ hne.symm, View.setFat_fat_self]
        rfl
    · intro d hd
      rw [List.mem_singleton] at hd
      subst hd
      exact ha.free
    · intro d hd hd'
      simp only [List.mem_singleton] at hd hd'
      rw [View.setFat_fat_of_ne _ _ hd, View.setFat_fat_of_ne _ _ hd']
  · rw [hend] at h
    simp only [Bool.false_eq_true, if_false, pure_eq_ok, Except.ok.injEq, Prod.mk.injEq] at h
    obtain ⟨rfl, rfl⟩ := h
    exact ⟨[], rest, by rw [List.append_nil, hd], .refl hc, rfl, rfl, by simp⟩

theorem nextOrAllocate_error (hg : Geometry vol) {disk : Mem} {e : Halt}
    (hc : IsChain vol (view vol disk) (c :: l)) (h : nextOrAllocate vol disk c = .error e) :
    e = .outOfClusters := by
  rw [nextOrAllocate, readFat_view hg hc.head_inRange, ok_bind] at h
  split at h
  · cases halloc : allocateCluster vol disk with
    | error e' =>
      rw [halloc, error_bind, Except.error.injEq] at h
      exact h ▸ allocateCluster_error hg halloc
    | ok a =>
      rw [halloc, ok_bind] at h
      simp [writeFat_ok hc.head_inRange] at h
  · simp at h

/-! ### Writing -/

/-- The bytes of the clusters `l`. -/
def content (vol : Fat16Volume) (v : View) (l : List Nat) : Mem :=
  joined (bytesPerCluster vol) v.data l

/-- How many bytes the clusters `l` hold. -/
def capacity (vol : Fat16Volume) (l : List Nat) : Nat := l.length * bytesPerCluster vol

/-- What writing `input` at `pos` along the chain `l` does. -/
structure Written (vol : Fat16Volume) (v v' : View) (l ext : List Nat) (pos : Nat)
    (input : List UInt8) : Prop extends Grown vol v v' l ext where
  data : ∀ c, c ∉ l → c ∉ ext → v'.data c = v.data c
  root : v'.root = v.root
  content_eq : content vol v' (l ++ ext) = (content vol v (l ++ ext)).write pos input
  lt_capacity : input ≠ [] → pos + input.length < capacity vol (l ++ ext)

theorem Written.refl (h : IsChain vol v l) (pos : Nat) : Written vol v v l [] pos [] where
  toGrown := .refl h
  data _ _ _ := rfl
  root := rfl
  content_eq := (Mem.write_nil _ _).symm
  lt_capacity h := absurd rfl h

theorem capacity_cons (vol : Fat16Volume) (c : Nat) (l : List Nat) :
    capacity vol (c :: l) = bytesPerCluster vol + capacity vol l := by
  rw [capacity, capacity, List.length_cons, Nat.add_mul, Nat.one_mul, Nat.add_comm]

theorem capacity_append (vol : Fat16Volume) (l l' : List Nat) :
    capacity vol (l ++ l') = capacity vol l + capacity vol l' := by
  rw [capacity, List.length_append, Nat.add_mul, capacity, capacity]

theorem capacity_lt (hg : Geometry vol) {l : List Nat} (hl : l.length ≤ 0xFFF7) :
    capacity vol l < 2 ^ 32 := by
  have hle : capacity vol l ≤ 0xFFF7 * 65536 := Nat.mul_le_mul hl hg.bytesPerCluster_le
  omega

/-- One turn: some bytes go to the first cluster, the chain grows if this is its end, and
the rest goes to the clusters behind. -/
theorem Written.cons (hg : Geometry vol) {rest tl more : List Nat} {m : Mem} {pos pos' : Nat}
    {input input' : List UInt8}
    (hfirst : ∀ behind j, j < bytesPerCluster vol → m j =
      (content vol v (c :: behind)).write pos input j)
    (hbehind : ∀ behind j, bytesPerCluster vol ≤ j →
      (content vol v behind).write pos' input' (j - bytesPerCluster vol) =
      (content vol v (c :: behind)).write pos input j)
    (hstop : input' = [] → pos + input.length ≤ bytesPerCluster vol)
    (hmore : input' ≠ [] → pos + input.length = bytesPerCluster vol + (pos' + input'.length))
    (hgrown : Grown vol v v₁ (c :: rest) more)
    (hdata : v₁.data = (v.setData c m).data) (hroot : v₁.root = v.root)
    (hsplit : rest ++ more = tl) (hne : tl ≠ []) (h : Written vol v₁ v' tl ext pos' input') :
    Written vol v v' (c :: rest) (more ++ ext) pos input := by
  have hb := hgrown.cons hsplit hne h.toGrown
  have hassoc : c :: rest ++ (more ++ ext) = c :: (tl ++ ext) := by
    rw [← hsplit, List.cons_append, List.append_assoc]
  have hnodup := hb.chain.nodup
  rw [hassoc, List.nodup_cons] at hnodup
  have hc1 : c ∉ tl := fun hm => hnodup.1 (List.mem_append_left _ hm)
  have hc2 : c ∉ ext := fun hm => hnodup.1 (List.mem_append_right _ hm)
  refine ⟨hb, ?_, ?_, ?_, ?_⟩
  · intro d hd hd'
    rw [← hsplit] at h
    simp only [List.mem_cons, List.mem_append, not_or] at hd hd'
    rw [h.data d (by simp [hd, hd']) hd'.2, hdata, View.setData_data_of_ne _ _ hd.1]
  · rw [h.root, hroot]
  · have hold : content vol v₁ (tl ++ ext) = content vol v (tl ++ ext) := by
      apply joined_congr
      intro d hd j _
      have hne : d ≠ c := fun he => hnodup.1 (he ▸ hd)
      rw [hdata, View.setData_data_of_ne _ _ hne]
    rw [hassoc]
    funext j
    by_cases hj : j < bytesPerCluster vol
    · rw [← hfirst _ j hj, content, joined_cons_of_lt hj, h.data c hc1 hc2, hdata,
        View.setData_data_self]
    · rw [← hbehind _ j (by omega), ← hold, ← h.content_eq]
      exact joined_cons_of_ge (by omega)
  · intro _
    rw [hassoc, capacity_cons]
    by_cases hin : input' = []
    · -- the cluster behind the last byte is there already
      have hlen : 1 ≤ tl.length := List.length_pos_iff.mpr hne
      have hcap : bytesPerCluster vol ≤ capacity vol tl := Nat.le_mul_of_pos_left _ hlen
      have hpos := hg.bytesPerCluster_pos
      have := hstop hin
      rw [capacity_append]
      omega
    · have := h.lt_capacity hin
      have := hmore hin
      omega

theorem Grown.of_setData {m : Mem} {d : Nat} (h : Grown vol (v.setData d m) v' l ext) :
    Grown vol v v' l ext := ⟨h.chain, h.fresh, h.fat⟩

theorem IsChain.setData (h : IsChain vol v l) (d : Nat) (m : Mem) :
    IsChain vol (v.setData d m) l := h.congr (fun _ _ => rfl)

section

variable (hg : Geometry vol) {rest tl more : List Nat} {pos : Nat} {input : List UInt8}
include hg

theorem Written.turn (hpos : pos < bytesPerCluster vol)
    (hgrown : Grown vol (v.setData c ((v.data c).write pos
      (input.take (bytesPerCluster vol - pos)))) v₁ (c :: rest) more)
    (hdata : v₁.data = (v.setData c ((v.data c).write pos
      (input.take (bytesPerCluster vol - pos)))).data)
    (hroot : v₁.root = v.root) (hsplit : rest ++ more = tl) (hne : tl ≠ [])
    (h : Written vol v₁ v' tl ext 0 (input.drop (bytesPerCluster vol - pos))) :
    Written vol v v' (c :: rest) (more ++ ext) pos input := by
  apply Written.cons hg ?_ ?_ ?_ ?_ hgrown.of_setData hdata hroot hsplit hne h
  · intro behind j hj
    rw [content, joined_cons_write (by omega), if_pos hj]
  · intro behind j hj
    rw [content, content, joined_cons_write (by omega), if_neg (by omega)]
  · intro hnil
    rw [List.drop_eq_nil_iff] at hnil
    omega
  · intro hnil
    rw [ne_eq, List.drop_eq_nil_iff] at hnil
    rw [List.length_drop]
    omega

theorem Written.skip (hpos : bytesPerCluster vol ≤ pos) (hin : input ≠ [])
    (hgrown : Grown vol v v₁ (c :: rest) more) (hdata : v₁.data = v.data)
    (hroot : v₁.root = v.root) (hsplit : rest ++ more = tl) (hne : tl ≠ [])
    (h : Written vol v₁ v' tl ext (pos - bytesPerCluster vol) input) :
    Written vol v v' (c :: rest) (more ++ ext) pos input := by
  have hself : v₁.data = (v.setData c (v.data c)).data := by
    rw [hdata]
    exact (Function.update_eq_self c v.data).symm
  apply Written.cons hg ?_ ?_ ?_ ?_ hgrown hself hroot hsplit hne h
  · intro behind j hj
    rw [content, joined_cons_write_of_ge hpos, if_pos hj]
  · intro behind j hj
    rw [content, content, joined_cons_write_of_ge hpos, if_neg (by omega)]
  · intro hnil
    exact absurd hnil hin
  · intro _
    omega

end

/-- Where the bytes of turn `i` go, counted from the cluster of that turn. -/
def position (b required start i : Nat) : Nat :=
  if i ≤ required then (required - i) * b + start else 0

theorem position_of_le {b required start i : Nat} (h : required ≤ i) :
    position b required start i = startInCluster required start i := by
  rw [position, startInCluster]
  by_cases he : i = required
  · subst he
    simp
  · rw [if_neg (by omega), if_neg he]

theorem position_of_lt (b start : Nat) {required i : Nat} (h : i < required) :
    b ≤ position b required start i ∧
      position b required start (i + 1) = position b required start i - b := by
  obtain ⟨k, hk⟩ := Nat.exists_eq_add_of_lt h
  rw [position, position, if_pos (by omega), if_pos (by omega),
    show required - i = k + 1 by omega, show required - (i + 1) = k by omega, Nat.add_mul]
  omega

theorem startInCluster_lt {b start : Nat} (h : start < b) (required i : Nat) :
    startInCluster required start i < b := by
  rw [startInCluster]
  split <;> omega

theorem chunk_le {b start : Nat} (h : start < b) (required i : Nat) (input : List UInt8) :
    startInCluster required start i +
      (input.take (b - startInCluster required start i)).length ≤ b := by
  have hs := startInCluster_lt h required i
  rw [List.length_take]
  omega

/-- **The loop writes along the chain.** -/
theorem writeClusters_ok (hg : Geometry vol) {required start : Nat}
    (hstart : start < bytesPerCluster vol) (fuel : Nat) :
    ∀ (i c : Nat) (rest : List Nat) (input : List UInt8) (disk disk' : Mem),
    IsChain vol (view vol disk) (c :: rest) →
    writeClusters vol required start fuel i c input disk = .ok disk' →
    ∃ ext, Written vol (view vol disk) (view vol disk') (c :: rest) ext
      (position (bytesPerCluster vol) required start i) input := by
  induction fuel with
  | zero =>
    intro i c rest input disk disk' hc h
    cases input with
    | nil =>
      simp only [writeClusters, Except.ok.injEq] at h
      subst h
      exact ⟨[], .refl hc _⟩
    | cons byte input => simp [writeClusters] at h
  | succ fuel ih =>
    intro i c rest input disk disk' hc h
    cases input with
    | nil =>
      simp only [writeClusters, Except.ok.injEq] at h
      subst h
      exact ⟨[], .refl hc _⟩
    | cons byte input =>
      rw [writeClusters] at h
      split at h
      · rename_i hreq
        have hs := startInCluster_lt hstart required i
        have hlen := chunk_le hstart required i (byte :: input)
        rw [bind_eq_ok] at h
        obtain ⟨⟨next, disk₂⟩, hnext, h⟩ := h
        have hview := view_writeCluster disk hg hc.head_inRange hlen
        obtain ⟨more, tl, hsplit, hgrown, hdata, hroot, -⟩ :=
          nextOrAllocate_ok hg (by rw [hview]; exact hc.setData _ _) hnext
        have hchain := hgrown.chain.tail
        rw [List.append_eq, hsplit] at hchain
        obtain ⟨ext, hw⟩ := ih (i + 1) next tl _ disk₂ disk' hchain h
        rw [hview] at hgrown hdata hroot
        rw [position, if_neg (by omega)] at hw
        rw [position_of_le hreq]
        exact ⟨more ++ ext, .turn hg hs hgrown hdata hroot hsplit (by simp) hw⟩
      · rename_i hreq
        rw [bind_eq_ok] at h
        obtain ⟨⟨next, disk₂⟩, hnext, h⟩ := h
        obtain ⟨more, tl, hsplit, hgrown, hdata, hroot, -⟩ := nextOrAllocate_ok hg hc hnext
        have hchain := hgrown.chain.tail
        rw [List.append_eq, hsplit] at hchain
        obtain ⟨ext, hw⟩ := ih (i + 1) next tl _ disk₂ disk' hchain h
        obtain ⟨hle, hpos⟩ := position_of_lt (bytesPerCluster vol) start
          (show i < required by omega)
        rw [hpos] at hw
        exact ⟨more ++ ext, .skip hg hle (by simp) hgrown hdata hroot hsplit (by simp) hw⟩

/-- **The loop ends, or runs out of clusters.** -/
theorem writeClusters_error (hg : Geometry vol) {required start : Nat}
    (hstart : start < bytesPerCluster vol) (fuel : Nat) :
    ∀ (i c : Nat) (rest : List Nat) (input : List UInt8) (disk : Mem) (e : Halt),
    IsChain vol (view vol disk) (c :: rest) → required - i + input.length ≤ fuel →
    writeClusters vol required start fuel i c input disk = .error e → e = .outOfClusters := by
  induction fuel with
  | zero =>
    intro i c rest input disk e hc hfuel h
    cases input with
    | nil => simp [writeClusters] at h
    | cons byte input =>
      rw [List.length_cons] at hfuel
      omega
  | succ fuel ih =>
    intro i c rest input disk e hc hfuel h
    cases input with
    | nil => simp [writeClusters] at h
    | cons byte input =>
      rw [writeClusters] at h
      split at h
      · rename_i hreq
        have hs := startInCluster_lt hstart required i
        have hlen := chunk_le hstart required i (byte :: input)
        have hview := view_writeCluster disk hg hc.head_inRange hlen
        have hc' : IsChain vol (view vol (disk.write (clusterAddress vol c
            (startInCluster required start i)) ((byte :: input).take (bytesPerCluster vol -
              startInCluster required start i)))) (c :: rest) := by
          rw [hview]
          exact hc.setData _ _
        cases hnext : nextOrAllocate vol (disk.write (clusterAddress vol c
            (startInCluster required start i)) ((byte :: input).take (bytesPerCluster vol -
              startInCluster required start i))) c with
        | error e' =>
          simp only [hnext, error_bind, Except.error.injEq] at h
          exact h ▸ nextOrAllocate_error hg hc' hnext
        | ok p =>
          obtain ⟨next, disk₂⟩ := p
          simp only [hnext, ok_bind] at h
          obtain ⟨more, tl, hsplit, hgrown, _⟩ := nextOrAllocate_ok hg hc' hnext
          have hchain := hgrown.chain.tail
          rw [List.append_eq, hsplit] at hchain
          refine ih (i + 1) next tl _ disk₂ e hchain ?_ h
          rw [List.length_cons] at hfuel
          rw [List.length_drop, List.length_cons]
          omega
      · rename_i hreq
        cases hnext : nextOrAllocate vol disk c with
        | error e' =>
          simp only [hnext, error_bind, Except.error.injEq] at h
          exact h ▸ nextOrAllocate_error hg hc hnext
        | ok p =>
          obtain ⟨next, disk₂⟩ := p
          simp only [hnext, ok_bind] at h
          obtain ⟨more, tl, hsplit, hgrown, _⟩ := nextOrAllocate_ok hg hc hnext
          have hchain := hgrown.chain.tail
          rw [List.append_eq, hsplit] at hchain
          exact ih (i + 1) next tl _ disk₂ e hchain (by omega) h

theorem position_zero (b off : Nat) : position b (off / b) (off % b) 0 = off := by
  rw [position, if_pos (Nat.zero_le _), Nat.sub_zero, Nat.mul_comm]
  exact Nat.div_add_mod off b

/-- **`write_to_cluster_chain` writes along the chain.** -/
theorem writeToClusterChain_ok (hg : Geometry vol) {disk disk' : Mem} {off : Nat}
    {input : List UInt8} (hc : IsChain vol (view vol disk) (c :: l))
    (h : writeToClusterChain vol disk c off input = .ok disk') :
    ∃ ext, Written vol (view vol disk) (view vol disk') (c :: l) ext off input := by
  have hpos := hg.bytesPerCluster_pos
  rw [writeToClusterChain, ensure_of (by omega), ok_bind, ensure_of hc.head_inRange.valid,
    ok_bind] at h
  have hw := writeClusters_ok hg (Nat.mod_lt off hpos) _ 0 c l input disk disk' hc h
  rwa [position_zero] at hw

/-- **It fails only for want of clusters.** -/
theorem writeToClusterChain_error (hg : Geometry vol) {disk : Mem} {off : Nat}
    {input : List UInt8} {e : Halt} (hc : IsChain vol (view vol disk) (c :: l))
    (h : writeToClusterChain vol disk c off input = .error e) : e = .outOfClusters := by
  have hpos := hg.bytesPerCluster_pos
  rw [writeToClusterChain, ensure_of (by omega), ok_bind, ensure_of hc.head_inRange.valid,
    ok_bind] at h
  exact writeClusters_error hg (Nat.mod_lt off hpos) _ 0 c l input disk e hc (le_refl _) h

/-! ### Reading -/

/-- **The loop reads along the chain.** -/
theorem readClusters_ok (hg : Geometry vol) {required start : Nat}
    (hstart : start < bytesPerCluster vol) {disk : Mem} (fuel : Nat) :
    ∀ (i c : Nat) (rest : List Nat) (n : Nat),
    IsChain vol (view vol disk) (c :: rest) → required - i + n ≤ fuel →
    position (bytesPerCluster vol) required start i + n ≤ capacity vol (c :: rest) →
    readClusters vol disk required start fuel i c n =
      .ok ((content vol (view vol disk) (c :: rest)).read
        (position (bytesPerCluster vol) required start i) n) := by
  induction fuel with
  | zero =>
    intro i c rest n hc hfuel hcap
    obtain rfl : n = 0 := by omega
    simp [readClusters]
  | succ fuel ih =>
    intro i c rest n hc hfuel hcap
    cases n with
    | zero => simp [readClusters]
    | succ n =>
      rw [capacity_cons] at hcap
      rw [readClusters]
      split
      · rename_i hreq
        have hs := startInCluster_lt hstart required i
        rw [position_of_le hreq] at hcap ⊢
        have hread := view_readCluster disk hg hc.head_inRange (show startInCluster required start i +
          min (n + 1) (bytesPerCluster vol - startInCluster required start i) ≤ _ by omega)
        rw [readFat_view hg hc.head_inRange, ok_bind, hread, content,
          joined_cons_read (by omega : startInCluster required start i ≤ bytesPerCluster vol)]
        by_cases hdone : n + 1 ≤ bytesPerCluster vol - startInCluster required start i
        · rw [Nat.min_eq_left hdone, Nat.sub_self, Nat.sub_eq_zero_of_le hdone]
          cases fuel <;> simp [readClusters]
        · rw [Nat.min_eq_right (by omega)]
          rcases hc.fat_head with ⟨rfl, _⟩ | ⟨d, tl, rfl, hd, _⟩
          · simp only [capacity, List.length_nil, Nat.zero_mul] at hcap
            omega
          · have hzero : position (bytesPerCluster vol) required start (i + 1) = 0 := by
              rw [position, if_neg (by omega)]
            have hrest := ih (i + 1) d tl
              (n + 1 - (bytesPerCluster vol - startInCluster required start i)) hc.tail (by omega)
              (by rw [hzero]; omega)
            rw [hd, hrest, hzero]
            rfl
      · rename_i hreq
        obtain ⟨hle, hpos⟩ := position_of_lt (bytesPerCluster vol) start
          (show i < required by omega)
        rw [readFat_view hg hc.head_inRange, ok_bind, content, joined_cons_read_of_ge hle, ← hpos]
        rcases hc.fat_head with ⟨rfl, _⟩ | ⟨d, tl, rfl, hd, _⟩
        · simp only [capacity, List.length_nil, Nat.zero_mul] at hcap
          omega
        · rw [hd]
          exact ih (i + 1) d tl (n + 1) hc.tail (by omega) (by rw [hpos]; omega)

/-- **A read within the chain returns its bytes.** -/
theorem readFromClusterChain_ok (hg : Geometry vol) {disk : Mem} {off n : Nat}
    (hc : IsChain vol (view vol disk) (c :: l)) (hn : off + n ≤ capacity vol (c :: l)) :
    readFromClusterChain vol disk c off n =
      .ok ((content vol (view vol disk) (c :: l)).read off n) := by
  have hpos := hg.bytesPerCluster_pos
  rw [readFromClusterChain, ensure_of (by omega), ok_bind]
  simp only
  split
  · rename_i hzero
    rw [hzero, Mem.read_zero, pure_eq_ok]
  · have hcap : position (bytesPerCluster vol) (off / bytesPerCluster vol)
        (off % bytesPerCluster vol) 0 + n ≤ capacity vol (c :: l) := by
      rwa [position_zero]
    have hfuel : off / bytesPerCluster vol - 0 + n ≤ off / bytesPerCluster vol + n := by
      rw [Nat.sub_zero]
    rw [ensure_of hc.head_inRange.valid, ok_bind,
      readClusters_ok hg (Nat.mod_lt off hpos) _ 0 c l n hc hfuel hcap, position_zero]

theorem readClusters_capacity (hg : Geometry vol) {required start : Nat}
    (hstart : start < bytesPerCluster vol) {disk : Mem} (fuel : Nat) :
    ∀ (i c : Nat) (rest : List Nat) (n : Nat) (bytes : List UInt8),
    IsChain vol (view vol disk) (c :: rest) → 0 < n →
    readClusters vol disk required start fuel i c n = .ok bytes →
    position (bytesPerCluster vol) required start i + n ≤ capacity vol (c :: rest) := by
  induction fuel with
  | zero =>
    intro i c rest n bytes _ hn h
    obtain ⟨n, rfl⟩ := Nat.exists_eq_succ_of_ne_zero (Nat.ne_of_gt hn)
    simp [readClusters] at h
  | succ fuel ih =>
    intro i c rest n bytes hc hn h
    obtain ⟨n, rfl⟩ := Nat.exists_eq_succ_of_ne_zero (Nat.ne_of_gt hn)
    -- the turn after this one, which has bytes left, starts at the next cluster
    have hbehind : ∀ left more, 0 < left →
        readClusters vol disk required start fuel (i + 1) ((view vol disk).fat c) left = .ok more →
        position (bytesPerCluster vol) required start (i + 1) + left ≤ capacity vol rest := by
      intro left more hleft hmore
      rcases hc.fat_head with ⟨rfl, hend⟩ | ⟨d, tl, rfl, hd, _⟩
      · obtain ⟨left, rfl⟩ := Nat.exists_eq_succ_of_ne_zero (Nat.ne_of_gt hleft)
        simp only [isEndOfLlNum, decide_eq_true_eq] at hend
        have hinv : ¬ isInvalidClusterNum ((view vol disk).fat c) = false := by
          simp only [isInvalidClusterNum, Bool.or_eq_false_iff, decide_eq_false_iff_not]
          omega
        cases fuel with
        | zero => simp [readClusters] at hmore
        | succ fuel => simp [readClusters, readFat, ensure_of_not hinv] at hmore
      · rw [hd] at hmore
        exact ih (i + 1) d tl left more hc.tail hleft hmore
    rw [capacity_cons]
    rw [readClusters] at h
    split at h
    · rename_i hreq
      simp only [readFat_view hg hc.head_inRange, ok_bind, bind_eq_ok] at h
      obtain ⟨more, hmore, _⟩ := h
      have hs := startInCluster_lt hstart required i
      rw [position_of_le hreq]
      by_cases hdone : n + 1 ≤ bytesPerCluster vol - startInCluster required start i
      · omega
      · have := hbehind _ more (by omega) hmore
        rw [position, if_neg (by omega)] at this
        omega
    · rename_i hreq
      obtain ⟨hle, hpos⟩ := position_of_lt (bytesPerCluster vol) start
        (show i < required by omega)
      simp only [readFat_view hg hc.head_inRange, ok_bind] at h
      have := hbehind _ bytes (by omega) h
      omega

/-- **A read that returns stayed within the chain.** -/
theorem readFromClusterChain_capacity (hg : Geometry vol) {disk : Mem} {off n : Nat}
    {bytes : List UInt8} (hc : IsChain vol (view vol disk) (c :: l)) (hn : 0 < n)
    (h : readFromClusterChain vol disk c off n = .ok bytes) : off + n ≤ capacity vol (c :: l) := by
  have hpos := hg.bytesPerCluster_pos
  rw [readFromClusterChain, ensure_of (by omega), ok_bind] at h
  simp only at h
  rw [if_neg (by omega), ensure_of hc.head_inRange.valid, ok_bind] at h
  have := readClusters_capacity hg (Nat.mod_lt off hpos) _ 0 c l n bytes hc hn h
  rwa [position_zero] at this

end Stuos.Fs.Fat
