import BehaviorTree.Executor
import Mathlib.Algebra.Ring.Periodic
import Mathlib.Data.Fintype.EquivFin
import Mathlib.Data.Nat.ModEq
import Mathlib.Dynamics.PeriodicPts.Defs

/-!
# Streams of words

Nothing is lost on the way from a seed and a name to the words that a generator draws. Mixing can be
undone, no word is drawn again before all others have been, and names that differ in a single byte have
streams of their own under every seed.
-/

namespace BehaviorTree

open Function

section Mixing

theorem ofNat_mul_eq_iff {c : UInt64} (hodd : c.toNat % 2 = 1) (i j : Nat) :
    UInt64.ofNat i * c = .ofNat j * c ↔ i ≡ j [MOD UInt64.size] := by
  have hcoprime : UInt64.size.Coprime c.toNat :=
    .pow_left 64 (Nat.coprime_two_left.mpr (Nat.odd_iff.mpr hodd))
  have hword : ∀ k : Nat, (UInt64.ofNat k * c).toNat = k * c.toNat % UInt64.size := by
    intro k
    rw [UInt64.toNat_mul, UInt64.toNat_ofNat', Nat.mod_mul_mod]
  rw [← UInt64.toNat_inj, hword, hword]
  constructor
  · exact Nat.ModEq.cancel_right_of_coprime hcoprime
  · exact Nat.ModEq.mul_right c.toNat

theorem mul_odd_injective {c : UInt64} (hodd : c.toNat % 2 = 1) :
    Injective fun x : UInt64 => x * c := by
  intro x y h
  have hmod := (ofNat_mul_eq_iff hodd x.toNat y.toNat).mp (by simpa using h)
  exact UInt64.toNat_inj.mp (hmod.eq_of_lt_of_lt x.toNat_lt_size y.toNat_lt_size)

/-- A word differs from its shift by what tells it from all others. -/
theorem xor_shiftRight_injective {k : UInt64} (hk : 0 < k.toNat % 64) :
    Injective fun x : UInt64 => x ^^^ (x >>> k) := by
  intro x y h
  dsimp only at h
  have hdifference : x ^^^ y = (x ^^^ y) >>> k := by
    have hpaired : (x ^^^ y) ^^^ (x >>> k ^^^ y >>> k) = (x ^^^ x >>> k) ^^^ (y ^^^ y >>> k) := by
      ac_rfl
    rw [h, UInt64.xor_self, UInt64.xor_eq_zero_iff] at hpaired
    rw [UInt64.shiftRight_xor, ← hpaired]
  have hzero : (x ^^^ y).toNat = 0 := by
    have hshrinks := congrArg UInt64.toNat hdifference
    rw [UInt64.toNat_shiftRight, Nat.shiftRight_eq_div_pow] at hshrinks
    by_contra hne
    have hlt := Nat.div_lt_self (Nat.pos_of_ne_zero hne) (Nat.one_lt_two_pow hk.ne')
    omega
  exact UInt64.xor_eq_zero_iff.mp (UInt64.toNat_inj.mp hzero)

theorem mix64_injective : Injective mix64 := by
  have hfirst := xor_shiftRight_injective (k := 30) (by decide)
  have hsecond := mul_odd_injective (c := 0xBF58476D1CE4E5B9) (by decide)
  have hthird := xor_shiftRight_injective (k := 27) (by decide)
  have hfourth := mul_odd_injective (c := 0x94D049BB133111EB) (by decide)
  have hfifth := xor_shiftRight_injective (k := 31) (by decide)
  exact hfifth.comp (hfourth.comp (hthird.comp (hsecond.comp hfirst)))

theorem mix64_bijective : Bijective mix64 := by
  have : Finite UInt64 := .of_injective UInt64.toFin fun _ _ => UInt64.toFin_inj.mp
  exact Finite.injective_iff_bijective.mp mix64_injective

theorem deriveSeed_injective_seed (stream : UInt64) : Injective (deriveSeed · stream) :=
  mix64_injective.comp fun _ _ => (UInt64.xor_left_inj _).mp

theorem deriveSeed_injective_stream (seed : UInt64) : Injective (deriveSeed seed) := by
  have hstep : Injective fun stream : UInt64 => stream + stride :=
    fun _ _ => (UInt64.add_left_inj stride).mp
  have hseed : Injective fun word : UInt64 => seed ^^^ word :=
    fun _ _ => (UInt64.xor_right_inj seed).mp
  exact mix64_injective.comp (hseed.comp (mix64_injective.comp hstep))

end Mixing

section Names

def absorb (hash : UInt64) (byte : UInt8) : UInt64 := (hash ^^^ byte.toUInt64) * 0x100000001B3

theorem streamOf_eq (name : String) :
    streamOf name = name.toUTF8.toList.foldl absorb 0xCBF29CE484222325 := rfl

/-- Whether two names have equally many bytes, and different ones in a single place. -/
def OneByteApart (a b : String) : Prop :=
  a.toUTF8.toList.length = b.toUTF8.toList.length ∧
    ∃! i : Nat, a.toUTF8.toList[i]? ≠ b.toUTF8.toList[i]?

theorem absorb_injective_hash (byte : UInt8) : Injective (absorb · byte) :=
  (mul_odd_injective (by decide)).comp fun _ _ => (UInt64.xor_left_inj _).mp

theorem absorb_injective_byte (hash : UInt64) : Injective (absorb hash) := by
  have hbyte : Injective fun byte : UInt8 => hash ^^^ byte.toUInt64 :=
    fun _ _ h => UInt8.toUInt64_inj.mp ((UInt64.xor_right_inj hash).mp h)
  exact (mul_odd_injective (by decide)).comp hbyte

theorem foldl_absorb_injective (bytes : List UInt8) : Injective (bytes.foldl absorb) := by
  induction bytes with
  | nil => exact injective_id
  | cons byte rest ih => exact ih.comp (absorb_injective_hash byte)

private theorem split_of_one_apart {l l' : List UInt8} (hlength : l.length = l'.length)
    (h : ∃! i : Nat, l[i]? ≠ l'[i]?) :
    ∃ before a b behind, a ≠ b ∧ l = before ++ a :: behind ∧ l' = before ++ b :: behind := by
  obtain ⟨i, hi, honly⟩ := h
  have hsame : ∀ k, k ≠ i → l[k]? = l'[k]? := fun k hk => by_contra fun hne => hk (honly k hne)
  have hlt : i < l.length := by
    by_contra hge
    rw [List.getElem?_eq_none (by omega), List.getElem?_eq_none (by omega)] at hi
    exact hi rfl
  have hlt' : i < l'.length := hlength ▸ hlt
  have htake : l'.take i = l.take i := by
    apply List.ext_getElem?
    intro k
    rw [List.getElem?_take, List.getElem?_take]
    split
    · exact (hsame k (by omega)).symm
    · rfl
  have hdrop : l'.drop (i + 1) = l.drop (i + 1) := by
    apply List.ext_getElem?
    intro k
    rw [List.getElem?_drop, List.getElem?_drop]
    exact (hsame _ (by omega)).symm
  refine ⟨l.take i, l[i], l'[i], l.drop (i + 1), ?_, ?_, ?_⟩
  · intro heq
    rw [List.getElem?_eq_getElem hlt, List.getElem?_eq_getElem hlt', heq] at hi
    exact hi rfl
  · rw [← List.drop_eq_getElem_cons hlt, List.take_append_drop]
  · rw [← htake, ← hdrop, ← List.drop_eq_getElem_cons hlt', List.take_append_drop]

/-- Names that differ in a single byte have different streams. -/
theorem OneByteApart.streamOf_ne {a b : String} (h : OneByteApart a b) :
    streamOf a ≠ streamOf b := by
  obtain ⟨before, x, y, behind, hne, ha, hb⟩ := split_of_one_apart h.1 h.2
  rw [streamOf_eq, streamOf_eq, ha, hb, List.foldl_append, List.foldl_append, List.foldl_cons,
    List.foldl_cons]
  exact fun heq => hne (absorb_injective_byte _ (foldl_absorb_injective behind heq))

end Names

namespace Generator

def word (g : Generator) (k : Nat) : UInt64 := ((fun g => g.nextWord.2)^[k] g).nextWord.1

theorem state_iterate_advance (k : Nat) (g : Generator) :
    (advance^[k] g).state = g.state + .ofNat k * stride := by
  induction k with
  | zero => exact (by simp : g.state = g.state + .ofNat 0 * stride)
  | succ k ih =>
    have hone : UInt64.ofNat 1 * stride = stride := UInt64.one_mul stride
    rw [iterate_succ_apply', advance, ih, UInt64.ofNat_add, UInt64.add_mul, hone, UInt64.add_assoc]

theorem word_eq (g : Generator) (k : Nat) :
    g.word k = mix64 (g.state + .ofNat (k + 1) * stride) := by
  have hnext : (fun g : Generator => g.nextWord.2) = advance := by
    funext g
    rw [nextWord_eq]
  have hstate := state_iterate_advance (k + 1) g
  rw [iterate_succ_apply'] at hstate
  calc g.word k
      = mix64 ((fun g : Generator => g.nextWord.2)^[k] g).advance.state := by rw [word, nextWord_eq]
    _ = mix64 (g.state + .ofNat (k + 1) * stride) := by rw [hnext, hstate]

theorem multiple_eq_iff (g : Generator) (i j : Nat) :
    g.state + .ofNat i * stride = g.state + .ofNat j * stride ↔ i ≡ j [MOD UInt64.size] := by
  rw [UInt64.add_right_inj, ofNat_mul_eq_iff (by decide)]

theorem word_eq_word_iff (g : Generator) (i j : Nat) :
    g.word i = g.word j ↔ i ≡ j [MOD UInt64.size] := by
  rw [word_eq, word_eq, mix64_injective.eq_iff, multiple_eq_iff]
  exact Nat.ModEq.add_iff_right rfl

theorem iterate_advance_eq_iff (g : Generator) (k : Nat) :
    advance^[k] g = g ↔ UInt64.size ∣ k := by
  have hzero : g.state + .ofNat 0 * stride = g.state := by simp
  have hmultiple := multiple_eq_iff g k 0
  rw [hzero, ← state_iterate_advance, Nat.modEq_zero_iff_dvd] at hmultiple
  rw [← hmultiple]
  exact ⟨congrArg state, fun h => congrArg mk h⟩

theorem minimalPeriod_advance (g : Generator) : minimalPeriod advance g = UInt64.size := by
  apply Nat.dvd_antisymm
  · exact IsPeriodicPt.minimalPeriod_dvd ((iterate_advance_eq_iff g UInt64.size).mpr dvd_rfl)
  · exact (iterate_advance_eq_iff g _).mp iterate_minimalPeriod

theorem periodic_word_iff (g : Generator) (p : Nat) : Periodic g.word p ↔ UInt64.size ∣ p := by
  rw [← Nat.modEq_zero_iff_dvd]
  constructor
  · intro h
    have hfirst := (word_eq_word_iff g (0 + p) 0).mp (h 0)
    rwa [Nat.zero_add] at hfirst
  · intro h k
    exact (word_eq_word_iff g (k + p) k).mpr (h.add_left k)

end Generator

/-- Mixing is one to one, and seeds are derived without loss of the seed or of the stream. A generator
draws the mixtures of the multiples of the stride, counted from its seed, all of them different before
the first comes again. Names that differ in a single byte have different streams, so trees of such names
start from different generators under every seed. -/
theorem streams_apart :
    Bijective mix64 ∧
    (∀ stream, Injective (deriveSeed · stream)) ∧
    (∀ seed, Injective (deriveSeed seed)) ∧
    (∀ seed,
      (∀ k, Generator.word ⟨seed⟩ k = mix64 (seed + .ofNat (k + 1) * stride)) ∧
      Set.InjOn (Generator.word ⟨seed⟩) (Set.Iio UInt64.size) ∧
      minimalPeriod Generator.advance ⟨seed⟩ = UInt64.size ∧
      ∀ p, Periodic (Generator.word ⟨seed⟩) p ↔ UInt64.size ∣ p) ∧
    ∀ t t' : Tree, OneByteApart t.id t'.id → streamOf t.id ≠ streamOf t'.id ∧
      ∀ seed, (Executor.ofSeed t seed).generator ≠ (Executor.ofSeed t' seed).generator := by
  refine ⟨mix64_bijective, deriveSeed_injective_seed, deriveSeed_injective_stream,
    fun seed => ⟨Generator.word_eq ⟨seed⟩, ?_, Generator.minimalPeriod_advance ⟨seed⟩,
      Generator.periodic_word_iff ⟨seed⟩⟩, fun t t' h => ⟨h.streamOf_ne, fun seed heq => ?_⟩⟩
  · intro i hi j hj heq
    exact ((Generator.word_eq_word_iff ⟨seed⟩ i j).mp heq).eq_of_lt_of_lt hi hj
  · exact h.streamOf_ne (deriveSeed_injective_stream seed (congrArg Generator.state heq))

theorem streams_apart_numbered :
    let t := Tree.create "guard-1" "Guard"
    let t' := Tree.create "guard-2" "Guard"
    OneByteApart t.id t'.id ∧ streamOf t.id ≠ streamOf t'.id ∧
      ∀ seed, (Executor.ofSeed t seed).generator ≠ (Executor.ofSeed t' seed).generator := by
  intro t t'
  have hbytes : t.id.toUTF8.toList = [103, 117, 97, 114, 100, 45, 49] := by decide +kernel
  have hbytes' : t'.id.toUTF8.toList = [103, 117, 97, 114, 100, 45, 50] := by decide +kernel
  have happart : OneByteApart t.id t'.id := by
    rw [OneByteApart, hbytes, hbytes']
    refine ⟨rfl, 6, by decide, fun i hi => ?_⟩
    by_contra hne
    have hsame : ∀ i < 7, i ≠ 6 → ([103, 117, 97, 114, 100, 45, 49] : List UInt8)[i]? =
        ([103, 117, 97, 114, 100, 45, 50] : List UInt8)[i]? := by
      decide
    rcases Nat.lt_or_ge i 7 with hlt | hge
    · exact hi (hsame i hlt hne)
    · exact hi ((List.getElem?_eq_none hge).trans (List.getElem?_eq_none hge).symm)
  obtain ⟨-, -, -, -, hnames⟩ := streams_apart
  exact ⟨happart, hnames t t' happart⟩

end BehaviorTree
