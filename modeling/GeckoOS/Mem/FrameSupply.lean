import GeckoOS.Mem.VmmInit

/-! The block allocator as the paging code uses it: the lowest free block is
handed out first, and as long as there are two, one of them is. -/
namespace GeckoOS.Mem.Paging.Bitmap
open Lib PhysicalMem State

/-- A frame whose block is inside the map and clear. Block 0 stands for NULL. -/
def Free (s : Bitmap) (f : Nat) : Prop := f ≠ 0 ∧ 4096 ∣ f ∧ f / blockSize < s.1.maxBlocks ∧ s.Clear f

/-- The number of clear bits below the end of the identity map. -/
def lowFree (s : Bitmap) : Nat :=
  Nat.count (fun b => b < s.1.maxBlocks ∧ s.1.testBlock b = false) (identityEnd / blockSize)

/-- Either nothing is taken, or the lowest clear bit is set. -/
theorem allocateBlock_cases (s : Bitmap) :
    allocateBlock s = (none, s) ∨
      ∃ b, s.1.LowestRun 1 b ∧ (allocateBlock s).1 = (if b = 0 then none else some (b * blockSize)) ∧
        (allocateBlock s).2.1.maxBlocks = s.1.maxBlocks ∧
        (allocateBlock s).2.1.usedBlocks = s.1.usedBlocks + 1 ∧
        ∀ c, (allocateBlock s).2.1.testBlock c = (s.1.testBlock c || decide (c = b)) := by
  obtain ⟨hm, hc⟩ := s.2
  rcases allocateBlocks_cases hm hc 1 with he | ⟨b, hb, hend, he⟩
  · exact .inl (Prod.ext (by simp [allocateBlock, he]) (Subtype.ext (by simp [allocateBlock, he])))
  · right
    refine ⟨b, hb, ?_, ?_, ?_, fun c => ?_⟩
    · simp only [allocateBlock, he]
      congr 1
      simp [blockSize]
    · simp [allocateBlock, he]
    · simp [allocateBlock, he]
    · simp only [allocateBlock, he, testBlock_withUsed, testBlock_setRun (by omega) hend]
      congr 2
      have : (1 : UInt32).toNat = 1 := rfl
      rw [this, eq_iff_iff]
      omega

private theorem count_le_succ {p q : Nat → Prop} [DecidablePred p] [DecidablePred q] {b : Nat}
    (h : ∀ c, p c → q c ∨ c = b) (n : Nat) : Nat.count p n ≤ Nat.count q n + 1 := by
  rw [Nat.count_eq_card_filter_range, Nat.count_eq_card_filter_range]
  have hsub : (Finset.range n).filter p ⊆ insert b ((Finset.range n).filter q) := by
    intro c hc
    obtain ⟨hn, hp⟩ := Finset.mem_filter.mp hc
    rcases h c hp with hq | rfl
    · exact Finset.mem_insert_of_mem (Finset.mem_filter.mpr ⟨hn, hq⟩)
    · exact Finset.mem_insert_self _ _
  exact (Finset.card_le_card hsub).trans (Finset.card_insert_le _ _)

theorem lowBlocks : LowBlocks allocateBlock Free lowFree where
  fresh := by
    intro s f s' h
    obtain ⟨hclear, hdvd, hlt, hset⟩ := allocateBlock_fresh.fresh s f s' h
    rcases allocateBlock_cases s with he | ⟨b, hb, hres, -⟩
    · rw [h] at he
      cases he
    · rw [h] at hres
      dsimp only at hres
      split at hres
      · cases hres
      · next hb0 =>
        obtain rfl := Option.some.inj hres
        have hmax := (hb.free 0 (by decide)).1
        refine ⟨⟨?_, hdvd, ?_, hclear⟩, hdvd, hlt, fun hav => hset hav.2.2.2⟩
        · unfold blockSize
          omega
        · rw [Nat.mul_div_cancel _ (by decide)]
          exact hmax
  mono := by
    intro s g hg
    refine ⟨hg.1, hg.2.1, ?_, allocateBlock_fresh.mono s g hg.2.2.2⟩
    rcases allocateBlock_cases s with he | ⟨b, -, -, hmax, -⟩
    · rw [he] at hg
      exact hg.2.2.1
    · rw [← hmax]
      exact hg.2.2.1
  le := by
    intro s
    rcases allocateBlock_cases s with he | ⟨b, -, -, hmax, -, hbits⟩
    · rw [he]
      exact Nat.le_succ _
    · apply count_le_succ (b := b)
      rintro c ⟨hlt, hclear⟩
      by_cases hcb : c = b
      · exact .inr hcb
      · refine .inl ⟨hmax ▸ hlt, ?_⟩
        rw [hbits, hclear]
        simp [hcb]
  first := by
    intro s f s' h hlow
    obtain ⟨c, hc, hlt, hclear⟩ := Nat.count_ne_iff_exists.mp (Nat.pos_iff_ne_zero.mp hlow)
    rcases allocateBlock_cases s with he | ⟨b, hb, hres, -⟩
    · rw [h] at he
      cases he
    · rw [h] at hres
      dsimp only at hres
      split at hres
      · cases hres
      · obtain rfl := Option.some.inj hres
        have hle : b ≤ c := by
          by_contra hgt
          refine hb.lowest c (by omega) fun k hk => ?_
          obtain rfl : k = 0 := by omega
          exact ⟨hlt, hclear⟩
        unfold identityEnd blockSize at hc ⊢
        omega
  frame := fun _ _ hf => ⟨hf.1, hf.2.1⟩

/-- The number of blocks to give, in a map of whole words that keeps block 0. -/
def left (s : Bitmap) : Nat :=
  if s.1.maxBlocks % 32 = 0 ∧ s.1.testBlock 0 = true then s.1.maxBlocks - s.1.usedBlocks else 0

private theorem exists_clear {s : Bitmap} (h : s.1.usedBlocks < s.1.maxBlocks) :
    ∃ b < s.1.maxBlocks, s.1.testBlock b = false := by
  by_contra hall
  have hfull : s.1.setCount = s.1.maxBlocks := by
    apply Nat.count_of_forall
    intro b hb
    by_contra hclear
    exact hall ⟨b, hb, Bool.eq_false_of_not_eq_true hclear⟩
  have := s.2.2
  omega

theorem supply : Supply allocateBlock left where
  le := by
    intro s
    rcases allocateBlock_cases s with he | ⟨b, -, -, hmax, hused, hbits⟩
    · rw [he]
      exact Nat.le_succ _
    · unfold left
      rw [hmax, hused, hbits]
      split
      · next h =>
        rw [if_pos ⟨h.1, by rw [h.2, Bool.true_or]⟩]
        omega
      · exact Nat.zero_le _
  some := by
    intro s hleft
    unfold left at hleft
    split at hleft
    · next h =>
      obtain ⟨hm, hc⟩ := s.2
      obtain ⟨b, hb, hclear⟩ := exists_clear (s := s) (by omega)
      have hfound : s.1.findFirstFreeBlocks 1 ≠ -1 := by
        apply findFirstFreeBlocks_found hm Nat.one_ne_zero (b := b) (by omega)
        intro j hj
        obtain rfl : j = 0 := by omega
        exact ⟨hb, hclear⟩
      have hroom : ¬ sub64 s.1.maxBlocks s.1.usedBlocks ≤ (1 : UInt32).toNat := by
        have hone : (1 : UInt32).toNat = 1 := rfl
        rw [hone, sub64_eq (by omega) (by omega)]
        omega
      rcases allocateBlocks_cases hm hc 1 with he | ⟨c, hrun, hend, he⟩
      · -- nothing was taken, although the count says so
        unfold allocateBlocks at he
        rw [if_neg hroom] at he
        dsimp only at he
        have hone : (1 : UInt32).toNat = 1 := rfl
        rw [hone, if_neg hfound] at he
        have hused : add64 s.1.usedBlocks 1 = s.1.usedBlocks := congrArg (fun r => r.2.usedBlocks) he
        rw [add64_eq (by omega)] at hused
        omega
      · have hc0 : c ≠ 0 := by
          rintro rfl
          have := (hrun.free 0 (by decide)).2
          rw [Nat.add_zero, h.2] at this
          cases this
        have hne : c * blockSize ≠ 0 := Nat.mul_ne_zero hc0 (by decide)
        simp [allocateBlock, he, hne]
    · omega
/-! A machine with 256 MiB, of which only block 0 is reserved. -/

private def allFree : State := ⟨fun _ => 0#32, 0x10000, 0⟩

private theorem allFree_setCount : (allFree.setBlock 0).setCount = 1 := by
  have hclear : ∀ b, allFree.testBlock b = false := fun b => by simp [testBlock_eq, allFree]
  have hnone : allFree.setCount = 0 := by
    unfold setCount
    simp [hclear]
  rw [setCount_setBlock (by decide) (hclear 0), hnone]

/-- The bitmap at boot. -/
def boot256 : Bitmap := ⟨(allFree.setBlock 0).withUsed 1, by decide, by simp [allFree_setCount]⟩

theorem boot256_testBlock (b : Nat) : boot256.1.testBlock b = decide (b = 0) := by
  unfold boot256
  rw [testBlock_withUsed, testBlock_setBlock (by decide)]
  simp [testBlock_eq, allFree]

theorem boot256_left : boot256.left = 0xFFFF := by
  unfold left
  rw [if_pos ⟨by decide, boot256_testBlock 0⟩]
  rfl

theorem boot256_lowFree : 63 ≤ boot256.lowFree := by
  have hcount : Nat.count (fun b => b < boot256.1.maxBlocks ∧ boot256.1.testBlock b = false) 64 = 63 := by
    simp only [boot256_testBlock]
    decide +kernel
  exact hcount.symm.le.trans (Nat.count_monotone _ (by decide))

end GeckoOS.Mem.Paging.Bitmap
