import BlockMachine.Block

/-!
# Stored kind numbers

Hosts that store stacks keep the number of each block's kind beside its written form. The numbers
are grouped by family and never change, so stored records keep their meaning.
-/

namespace BlockMachine

/-- The number of a kind that has none of its own. -/
def unknownId : Int := -9999

/-- The stored number of an operator. -/
def Operator.storedId : Operator → Int
  | .random => 8000
  | .plus => 2000
  | .minus => 2001
  | .multiply => 2002
  | .divide => 2003
  | .power => 2004
  | .modulo => 2005
  | .minimum => 2021
  | .maximum => 2022
  | .ceil => 2006
  | .floor => 2007
  | .round => 2008
  | .absolute => 2009
  | .factorial => 2010
  | .squareRoot => 2011
  | .logarithm => 2012
  | .naturalLogarithm => 2013
  | .sine => 2014
  | .cosine => 2015
  | .tangent => 2016
  | .arcSine => 2017
  | .arcCosine => 2018
  | .arcTangent => 2019
  | .arcTangent2 => 2020
  | .lessThan => 3000
  | .greaterThan => 3001
  | .lessOrEqual => 3002
  | .greaterOrEqual => 3003
  | .equal => 3004
  | .negate => 3005
  | .conjunction => 3006
  | .disjunction => 3007
  | .execute => 6001
  | .branch => 6002
  | .map => 6003
  | .fold => 6004
  | .foldHelper => 6005
  | .maybe => 6006
  | .filter => 6007
  | .filterHelper => 6011
  | .compose => 6008
  | .iterate => 6009
  | .count => 5002
  | .read => 5003
  | .elem => 5004
  | .insert => 5005
  | .append => 5006
  | .replace => 5007
  | .delete => 5008
  | .write => 5009
  | .integral => 7000
  | .derivative => 7001
  | .sum => 7002
  | .product => 7003
  | .positiveLimit => 7005
  | .negativeLimit => 7006
  | .limit => 7004
  | .getMemory => 8002
  | .setMemory => 8003

/-- The stored number of a kind; a module's kinds bring their own. -/
def Kind.storedId : Kind → Int
  | .error => 1000
  | .number => 1001
  | .boolean => 1002
  | .string => 1003
  | .memoryReference => 1007
  | .memory => 8001
  | .randomInt => 1004
  | .randomReal => 1005
  | .randomBool => 1006
  | .assign => 4000
  | .fetch => 4001
  | .null => 5001
  | .data => 5000
  | .package => 5010
  | .getSymbol => unknownId
  | .setSymbol => unknownId
  | .color => 1008
  | .code => 6000
  | .operator op => op.storedId
  | .extension typeId => typeId

end BlockMachine
