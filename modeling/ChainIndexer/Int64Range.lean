namespace ChainIndexer.Int64Range

def lowest : Int := -9223372036854775808

def highest : Int := 9223372036854775807

def unsignedHighest : Nat := 18446744073709551615

def Holds (n : Int) : Prop := lowest ≤ n ∧ n ≤ highest

instance (n : Int) : Decidable (Holds n) := inferInstanceAs (Decidable (_ ∧ _))

def saturate (n : Int) : Int := max lowest (min n highest)

theorem saturate_holds (n : Int) : Holds (saturate n) := by
  simp only [saturate, Holds, lowest, highest]; omega

theorem saturate_of_holds {n : Int} (h : Holds n) : saturate n = n := by
  simp only [saturate, Holds, lowest, highest] at *; omega

end ChainIndexer.Int64Range
