import DifferentialPrivacy.Proofs.Random.StreamPosition

set_option autoImplicit false

/-!
# Mixing loses nothing

Each step of mixing can be undone. A word is determined by its exclusive or with itself shifted down,
since the topmost bit is left as it is and gives the ones below it, and multiplication by an odd
constant is undone by the inverse of that constant. So different arguments are mixed to different words:
no word comes twice in a stream, and the streams of two seeds differ at every place.
-/
namespace DifferentialPrivacy.WordStream

/-! ### Steps of mixing -/

theorem xor_shiftRight (x y k : UInt64) : (x ^^^ y) >>> k = (x >>> k) ^^^ (y >>> k) := by
  rw [← UInt64.toNat_inj, UInt64.toNat_shiftRight, UInt64.toNat_xor, UInt64.toNat_xor,
    UInt64.toNat_shiftRight, UInt64.toNat_shiftRight, Nat.shiftRight_xor_distrib]

/-- Only zero is its own shift. -/
theorem eq_zero_of_shiftRight {d k : UInt64} (hk : k.toNat % 64 ≠ 0) (h : d >>> k = d) : d = 0 := by
  have hdiv : d.toNat / 2 ^ (k.toNat % 64) = d.toNat := by
    rw [← Nat.shiftRight_eq_div_pow, ← UInt64.toNat_shiftRight, h]
  by_contra hd
  have hpos : 0 < d.toNat := Nat.pos_of_ne_zero fun h0 => hd (UInt64.toNat_inj.mp h0)
  have hlt : d.toNat / 2 ^ (k.toNat % 64) < d.toNat :=
    Nat.div_lt_self hpos (Nat.one_lt_two_pow hk)
  omega

theorem xorShift_injective {k : UInt64} (hk : k.toNat % 64 ≠ 0) :
    Function.Injective fun z : UInt64 => z ^^^ (z >>> k) := by
  intro x y h
  have hzero : (x ^^^ (x >>> k)) ^^^ (y ^^^ (y >>> k)) = 0 := UInt64.xor_eq_zero_iff.mpr h
  have hpair : (x ^^^ y) ^^^ ((x ^^^ y) >>> k) = 0 := by
    rw [xor_shiftRight, ← hzero]
    ac_rfl
  exact UInt64.xor_eq_zero_iff.mp
    (eq_zero_of_shiftRight hk (UInt64.xor_eq_zero_iff.mp hpair).symm)

theorem mul_injective {c d : UInt64} (h : c * d = 1) :
    Function.Injective fun z : UInt64 => z * c := by
  intro x y hxy
  calc x = x * c * d := by rw [UInt64.mul_assoc, h, UInt64.mul_one]
    _ = y * c * d := congrArg (· * d) hxy
    _ = y := by rw [UInt64.mul_assoc, h, UInt64.mul_one]

theorem mix_injective : Function.Injective mix := by
  have hfirst : (0xBF58476D1CE4E5B9 : UInt64) * 0x96DE1B173F119089 = 1 := by decide
  have hsecond : (0x94D049BB133111EB : UInt64) * 0x319642B2D24D8EC3 = 1 := by decide
  exact ((xorShift_injective (k := 31) (by decide)).comp (mul_injective hsecond)).comp
    (((xorShift_injective (k := 27) (by decide)).comp (mul_injective hfirst)).comp
      (xorShift_injective (k := 30) (by decide)))

theorem mul_gamma_injective : Function.Injective fun i : UInt64 => i * gamma :=
  mul_injective (d := 0xF1DE83E19937733D) (by decide)

/-! ### Words of one stream and of two -/

theorem word_injective (seed : UInt64) : Function.Injective (word seed) := fun _ _ h =>
  mul_gamma_injective ((UInt64.add_right_inj seed).mp (mix_injective h))

theorem word_inj_seed {s t i : UInt64} : word s i = word t i ↔ s = t :=
  ⟨fun h => (UInt64.add_left_inj _).mp (mix_injective h), fun h => h ▸ rfl⟩

theorem wordAt_ne (seed : UInt64) {i j : Nat} (hij : i < j) (hj : j < 2 ^ 64) :
    wordAt seed i ≠ wordAt seed j := by
  intro h
  have hnumber := congrArg UInt64.toNat (word_injective seed h)
  rw [UInt64.toNat_ofNat', UInt64.toNat_ofNat', Nat.mod_eq_of_lt (hij.trans hj),
    Nat.mod_eq_of_lt hj] at hnumber
  omega

theorem littleEndian_injective : Function.Injective littleEndian := by
  intro v w h
  rw [← UInt64.toNat_inj, ← ofDigits_littleEndian v, h, ofDigits_littleEndian]

/-- The first eight bytes of a longer reply are those of the next word. -/
theorem take_bytesAfter (seed : UInt64) (c : Nat) {n : Nat} (hn : 8 ≤ n) :
    (bytesAfter seed c n).take 8 = littleEndian (wordAt seed (c + 1)) := by
  have hlength := length_littleEndian (wordAt seed (c + 1))
  rw [bytesAfter_of_pos seed c (by omega), List.take_of_length_le (hlength.trans_le hn),
    List.take_append_of_le_length hlength.ge, List.take_of_length_le hlength.le]

theorem take_fill_eq_iff (s t : UInt64) (c : Nat) {n : Nat} (hn : 8 ≤ n) :
    ((Place.source ⟨s, c⟩).fill n).1.take 8 = ((Place.source ⟨t, c⟩).fill n).1.take 8 ↔ s = t := by
  rw [fill_source, fill_source]
  dsimp only
  rw [take_bytesAfter s c hn, take_bytesAfter t c hn, littleEndian_injective.eq_iff]
  exact word_inj_seed

/-! ### Two seeds and one history -/

/-- Two sources of one history have used up as much, and have one seed if they started with it or were
both given it since. -/
theorem afterAll_pair (s t : UInt64) (c : Nat) (qs : List Request) :
    (Place.afterAll ⟨s, c⟩ qs).used = (Place.afterAll ⟨t, c⟩ qs).used ∧
      ((Place.afterAll ⟨s, c⟩ qs).seed = (Place.afterAll ⟨t, c⟩ qs).seed ↔
        s = t ∨ ∃ r, Request.reseed r ∈ qs) := by
  induction qs generalizing s t c with
  | nil => simp [Place.afterAll]
  | cons q qs ih =>
    cases q with
    | fill n => simpa [Place.afterAll, Place.after] using ih s t (c + wordsFor n)
    | seed n => simpa [Place.afterAll, Place.after] using ih s t (c + wordsFor n)
    | reseed r => simp [Place.afterAll, Place.after]

/-- No word comes twice in a stream, and two seeds never have a word in common at one place. -/
theorem words_distinct :
    (∀ seed i j, 1 ≤ i → i < j → j < 2 ^ 64 → wordAt seed i ≠ wordAt seed j) ∧
    (∀ s t i, s ≠ t → wordAt s i ≠ wordAt t i) ∧
    ∀ s t qs n, s ≠ t → 8 ≤ n → ∃ a b u v,
      runAll qs (ofSeed s) = .ok (a, u) ∧ runAll qs (ofSeed t) = .ok (b, v) ∧
      ((u.fill n).1.take 8 ≠ (v.fill n).1.take 8 ↔ ∀ r, Request.reseed r ∉ qs) := by
  refine ⟨fun seed i j _ hij hj => wordAt_ne seed hij hj, fun s t i hst => mt word_inj_seed.mp hst,
    ?_⟩
  intro s t qs n hst hn
  obtain ⟨a, hs, -⟩ := runAll_source ⟨s, 0⟩ qs
  obtain ⟨b, ht, -⟩ := runAll_source ⟨t, 0⟩ qs
  refine ⟨a, b, _, _, hs, ht, ?_⟩
  obtain ⟨hused, hseed⟩ := afterAll_pair s t 0 qs
  have hsource : Place.afterAll ⟨t, 0⟩ qs =
      ⟨(Place.afterAll ⟨t, 0⟩ qs).seed, (Place.afterAll ⟨s, 0⟩ qs).used⟩ := by rw [hused]
  rw [hsource, ne_eq, take_fill_eq_iff _ _ _ hn, hseed]
  simp [hst]

/-- Seeds one and two keep apart after a reply of thirteen bytes and a seed. -/
theorem words_distinct_two : wordAt 1 3 ≠ wordAt 1 7 ∧ wordAt 1 3 ≠ wordAt 2 3 ∧
    ∃ a b u v, runAll [.fill 13, .seed 32] (ofSeed 1) = .ok (a, u) ∧
      runAll [.fill 13, .seed 32] (ofSeed 2) = .ok (b, v) ∧
      (u.fill 9).1.take 8 ≠ (v.fill 9).1.take 8 := by
  obtain ⟨hstream, hseeds, hhistory⟩ := words_distinct
  obtain ⟨a, b, u, v, hs, ht, hdiffer⟩ :=
    hhistory 1 2 [.fill 13, .seed 32] 9 (by decide) (by decide)
  exact ⟨hstream 1 3 7 (by decide) (by decide) (by decide), hseeds 1 2 3 (by decide),
    a, b, u, v, hs, ht, hdiffer.mpr (by simp)⟩

end DifferentialPrivacy.WordStream
