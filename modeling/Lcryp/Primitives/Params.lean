import Lcryp.Primitives.ArithUint256

/-!
# Consensus parameters

The part of `Consensus::Params` and `CChainParams` that the modelled functions read.
-/
namespace Lcryp
structure ConsensusParams where
  hashGenesisBlock : Uint256
  nSubsidyHalvingInterval : Nat
  bip34Height : Nat
  bip34Hash : Uint256
  bip65Height : Nat
  bip66Height : Nat
  csvHeight : Nat
  segwitHeight : Nat
  powLimit : Uint256
  fPowAllowMinDifficultyBlocks : Bool
  nPowTargetSpacing : Int
  nPowTargetTimespan : Int
  nMinimumChainWork : Uint256
  signetBlocks : Bool
  /-- `Params().GenesisBlock().GetBlockTime()`. -/
  genesisTime : Int
  /-- `checkpointData.mapCheckpoints` in ascending height. -/
  mapCheckpoints : List (Nat × Uint256)
  spacing_pos : 0 < nPowTargetSpacing
  spacing_le_timespan : nPowTargetSpacing ≤ nPowTargetTimespan
  timespan_lt : nPowTargetTimespan < 2^63

inductive BuriedDeployment
  | heightInCb
  | cltv
  | dersig
  | csv
  | segwit
deriving DecidableEq

namespace ConsensusParams
variable (params : ConsensusParams)
def difficultyAdjustmentInterval : Int := params.nPowTargetTimespan.tdiv params.nPowTargetSpacing
def deploymentHeight : BuriedDeployment → Nat
  | .heightInCb => params.bip34Height
  | .cltv => params.bip65Height
  | .dersig => params.bip66Height
  | .csv => params.csvHeight
  | .segwit => params.segwitHeight

/-- The ten-minute spacing and one-hour timespan shared by every network. -/
structure HourlyTimespan (params : ConsensusParams) : Prop where
  spacing : params.nPowTargetSpacing = 600
  timespan : params.nPowTargetTimespan = 3600

theorem HourlyTimespan.interval {params : ConsensusParams} (h : params.HourlyTimespan) :
    params.difficultyAdjustmentInterval = 6 := by
  simp [difficultyAdjustmentInterval,h.spacing,h.timespan]
end ConsensusParams

def mainGenesisHash : Uint256 := 0x2fd6fa1585988ceae4d8949a739b3a8df6274f4d41c88e2effb96497f35bded6#256

def mainParams : ConsensusParams where
  hashGenesisBlock := mainGenesisHash
  nSubsidyHalvingInterval := 210240
  bip34Height := 0
  bip34Hash := mainGenesisHash
  bip65Height := 0
  bip66Height := 0
  csvHeight := 0
  segwitHeight := 0
  powLimit := 0x7fffffffffffffffffffffffffffffffffffffffffffffffffffffffffffffff#256
  fPowAllowMinDifficultyBlocks := false
  nPowTargetSpacing := 10 * 60
  nPowTargetTimespan := 1 * 1 * 60 * 60
  nMinimumChainWork := 1#256
  signetBlocks := false
  genesisTime := 1667196479
  mapCheckpoints := [(0, mainGenesisHash)]
  spacing_pos := by decide
  spacing_le_timespan := by decide
  timespan_lt := by decide

theorem mainParams_hourly : mainParams.HourlyTimespan := ⟨rfl,rfl⟩
end Lcryp
